import Datalog.Proofs.Clause.Viability

/-!
# Facts with variables

A fact with a variable can be derived from its tokens and is refused nonetheless, as soon as its
period has been read.  So reading clauses stops at the first such fact if the lexemes begin with
it, behind any number of clauses that are accepted, and whatever follows
(`Grammar.readClauses_eq_illFormed_iff`).

* `Grammar.FirstOpenFact`: the first fact with a variable, and the clauses in front of it.
* `Grammar.IsProgram.exists_firstOpenFact`: clauses that are not all accepted, split there.
* `Grammar.not_stuck_of_isProgram`: on tokens that can be derived, reading is never stuck.
-/

namespace Datalog
namespace Grammar

/-- Behind clauses whose facts are ground stands the first fact that is not. -/
structure FirstOpenFact (before clause : List Token) (a : Atom) : Prop where
  /-- What stands in front of it. -/
  before : ∃ cs, IsProgram before cs ∧ GroundFacts cs
  /-- The fact is complete. -/
  clause : IsClause clause (.fact a)
  /-- It has a variable. -/
  vars : a.vars ≠ []

/-- A clause is acceptable unless it is a fact with a variable. -/
theorem groundFacts_or_open (c : Clause) :
    GroundFacts [c] ∨ ∃ a, c = .fact a ∧ a.vars ≠ [] := by
  cases c with
  | rule r => exact Or.inl fun a ha => by cases List.mem_singleton.mp ha
  | fact a =>
    by_cases hvars : a.vars = []
    · refine Or.inl fun a' ha' => ?_
      obtain rfl := Clause.fact.inj (List.mem_singleton.mp ha')
      exact hvars
    · exact Or.inr ⟨a, rfl, hvars⟩

theorem IsProgram.concat {tokens clause : List Token} {cs : List Clause} {c : Clause}
    (h : IsProgram tokens cs) (hclause : IsClause clause c) :
    IsProgram (tokens ++ clause) (cs ++ [c]) := by
  induction h with
  | nil =>
    have hone := IsProgram.cons hclause .nil
    rwa [List.append_nil] at hone
  | cons hfirst _ ih =>
    rw [List.append_assoc]
    exact .cons hfirst ih

/-- Clauses of which some fact has a variable, split at the first such fact. -/
theorem IsProgram.exists_firstOpenFact {tokens : List Token} {cs : List Clause}
    (h : IsProgram tokens cs) (hground : ¬GroundFacts cs) :
    ∃ before clause rest a, tokens = before ++ (clause ++ rest) ∧
      FirstOpenFact before clause a := by
  induction h with
  | nil => exact absurd groundFacts_nil hground
  | @cons tokens tokens' c cs hclause _ ih =>
    rcases groundFacts_or_open c with hc | ⟨a, rfl, hvars⟩
    · obtain ⟨before, clause, rest, a, rfl, hopen⟩ :=
        ih fun hcs => hground (groundFacts_cons_iff.mpr ⟨hc, hcs⟩)
      obtain ⟨others, hothers, hothersGround⟩ := hopen.before
      refine ⟨tokens ++ before, clause, rest, a, (List.append_assoc _ _ _).symm, ?_⟩
      exact ⟨⟨c :: others, .cons hclause hothers, groundFacts_cons_iff.mpr ⟨hc, hothersGround⟩⟩,
        hopen.clause, hopen.vars⟩
    · exact ⟨[], tokens, tokens', a, rfl, ⟨[], .nil, groundFacts_nil⟩, hclause, hvars⟩

/-! ## Reading -/

theorem readClause_of_open {clause : List Lexeme} {a : Atom} {x : Variable}
    (h : IsClause (tokensOf clause) (.fact a)) (hx : a.vars.head? = some x) (rest : List Lexeme) :
    readClause (clause ++ rest) =
      .error (.illFormed (.ungroundedFact a.predicate x (startOffset clause)), rest) := by
  have hstart : startOffset (clause ++ rest) = startOffset clause := by
    cases clause with
    | nil => exact absurd rfl h.ne_nil
    | cons l clause => rfl
  obtain ⟨xs, hvars⟩ := List.head?_eq_some_iff.mp hx
  rcases h.readParts rfl rest with ⟨a', o, ha, hatom⟩ | ⟨head, body, o, o', ls, hc, -, -⟩
  · obtain rfl := Clause.fact.inj ha
    simp only [readClause, hatom, hvars, hstart]
  · cases hc

theorem open_of_readClause {ls rest : List Lexeme} {e : IllFormed}
    (h : readClause ls = .error (.illFormed e, rest)) :
    ∃ clause a x, ls = clause ++ rest ∧ IsClause (tokensOf clause) (.fact a) ∧
      a.vars.head? = some x ∧ e = .ungroundedFact a.predicate x (startOffset clause) := by
  unfold readClause at h
  split at h
  · next hhead =>
    cases h
    obtain ⟨expected, _, hstop, -⟩ := stuckIn_of_readAtom hhead
    cases hstop
  · next head offset ls' hhead =>
    split at h
    · cases h
    · next x xs hvars =>
      cases h
      obtain ⟨front, rfl, hfront⟩ := isAtom_of_readAtom hhead
      refine ⟨front ++ [⟨.period, offset⟩], head, x, by simp, ?_, by rw [hvars]; rfl, ?_⟩
      · rw [tokensOf_append]
        exact .fact hfront
      · cases front <;> rfl
  · split at h
    · next hbody =>
      cases h
      obtain ⟨expected, _, hstop, -⟩ := stuckIn_of_readBody hbody
      cases hstop
    · cases h
    · cases h
  · cases h

/-- **A fact with a variable is refused** at the first place where one is complete, and nowhere
else. -/
theorem readClauses_eq_illFormed_iff {ls rest : List Lexeme} {e : IllFormed} :
    readClauses ls = .error (.illFormed e, rest) ↔
      ∃ before clause a x, ls = before ++ (clause ++ rest) ∧
        FirstOpenFact (tokensOf before) (tokensOf clause) a ∧ a.vars.head? = some x ∧
          e = .ungroundedFact a.predicate x (startOffset clause) := by
  constructor
  · intro h
    fun_induction readClauses ls with
    | case1 => cases h
    | case2 ls hls e' hclause =>
      cases h
      obtain ⟨clause, a, x, rfl, hfact, hx, rfl⟩ := open_of_readClause hclause
      refine ⟨[], clause, a, x, rfl, ⟨⟨[], .nil, groundFacts_nil⟩, hfact, ?_⟩, hx, rfl⟩
      rintro hvars
      rw [hvars] at hx
      cases hx
    | case3 => cases h
    | case4 ls hls c ls' hclause hlt e' hrest ih =>
      cases h
      obtain ⟨⟨front, rfl, hfront⟩, hc⟩ := isClause_of_readClause hclause
      obtain ⟨before, clause, a, x, rfl, hopen, hx, he⟩ := ih hrest
      obtain ⟨cs, hcs, hground⟩ := hopen.before
      refine ⟨front ++ before, clause, a, x, (List.append_assoc _ _ _).symm, ⟨⟨c :: cs, ?_, ?_⟩,
        hopen.clause, hopen.vars⟩, hx, he⟩
      · rw [tokensOf_append]
        exact .cons hfront hcs
      · exact groundFacts_cons_iff.mpr ⟨hc, hground⟩
  · rintro ⟨before, clause, a, x, rfl, hopen, hx, rfl⟩
    obtain ⟨cs, hcs, hground⟩ := hopen.before
    have hrefused := readClause_of_open hopen.clause hx rest
    have hne : clause ++ rest ≠ [] := fun hnil =>
      hopen.clause.ne_nil (tokensOf_eq_nil_iff.mpr (List.append_eq_nil_iff.mp hnil).1)
    rw [readClauses_append hcs hground rfl, readClauses_of_error hne hrefused]
    rfl

/-- Where some fact has a variable, reading stops at the first one. -/
theorem exists_readClauses_eq_illFormed {front : List Lexeme} {cs : List Clause}
    (h : IsProgram (tokensOf front) cs) (hground : ¬GroundFacts cs) (rest : List Lexeme) :
    ∃ e after, readClauses (front ++ rest) = .error (.illFormed e, after) := by
  obtain ⟨before, clause, after, a, htokens, hopen⟩ := h.exists_firstOpenFact hground
  obtain ⟨ls, ls', rfl, rfl, hls'⟩ := tokensOf_eq_append_iff.mp htokens
  obtain ⟨ls₁, ls₂, rfl, rfl, -⟩ := tokensOf_eq_append_iff.mp hls'
  obtain ⟨x, hx⟩ : ∃ x, a.vars.head? = some x :=
    Option.ne_none_iff_exists'.mp fun hnone => hopen.vars (List.head?_eq_none_iff.mp hnone)
  refine ⟨_, ls₂ ++ rest, readClauses_eq_illFormed_iff.mpr
    ⟨ls, ls₁, a, x, ?_, hopen, hx, rfl⟩⟩
  rw [List.append_assoc, List.append_assoc]

/-- On the tokens of a program, reading is never stuck. -/
theorem not_stuck_of_isProgram {ls rest : List Lexeme} {cs : List Clause}
    {expected : List Token.Kind} (h : IsProgram (tokensOf ls) cs) :
    readClauses ls ≠ .error (.stuck expected, rest) := by
  by_cases hground : GroundFacts cs
  · rw [readClauses_eq_ok_iff.mpr ⟨h, hground⟩]
    exact fun heq => by cases heq
  · obtain ⟨e, after, hrefused⟩ := exists_readClauses_eq_illFormed h hground []
    rw [List.append_nil] at hrefused
    rw [hrefused]
    exact fun heq => by cases heq

/-- Reading clauses is not stopped by a fact with a variable if no fact that is complete has one. -/
theorem not_illFormed_iff {ls : List Lexeme} :
    (∀ e rest, readClauses ls ≠ .error (.illFormed e, rest)) ↔
      ∀ front back cs, ls = front ++ back → IsProgram (tokensOf front) cs → GroundFacts cs := by
  constructor
  · rintro h front back cs rfl hcs
    by_contra hground
    obtain ⟨e, rest, hrefused⟩ := exists_readClauses_eq_illFormed hcs hground back
    exact h e rest hrefused
  · intro h e rest hrefused
    obtain ⟨before, clause, a, x, rfl, hopen, -⟩ := readClauses_eq_illFormed_iff.mp hrefused
    obtain ⟨cs, hcs, -⟩ := hopen.before
    have hprogram : IsProgram (tokensOf (before ++ clause)) (cs ++ [.fact a]) := by
      rw [tokensOf_append]
      exact hcs.concat hopen.clause
    have hground := h _ rest _ (List.append_assoc _ _ _).symm hprogram
    exact hopen.vars (hground a (List.mem_append_right cs (List.mem_singleton.mpr rfl)))

end Grammar
end Datalog
