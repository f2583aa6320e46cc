import Datalog.Proofs.Clause.OpenFacts
import Datalog.Proofs.Clause.Reading
import Datalog.Proofs.Token.Stream

/-!
# What is wrong is reported where it begins

A text can be wrong in three ways: no token starts at some place, a token stands where none of its
kind may stand, or a fact has a variable.  It is refused for the one that comes first
(`Clause.refused_at_first_offence`).

* `Grammar.Judges`: a rule accepts the tokens of a class, and otherwise knows where it is stuck.
* `Grammar.FirstOffence`: the first token with which a text can no longer be continued.
* `Grammar.Judges.firstOffence`, `Judges.unreadable_iff`: what such a rule reports of a text.

## Why no later token is blamed

A rule that is stuck in front of a token is stuck there whatever follows.  If something could follow
so that all of it is derived, then the rule would have to accept that, or refuse it for a fact with
a variable; it would not be stuck.  So the token where it is stuck is the first one with which
nothing can be continued, and no derivation has to be taken apart to see this.
-/

namespace Datalog
namespace Grammar

variable {α : Type}

/-! ## The end is no part of a text -/

theorem IsTerms.endOfText_notMem {tokens : List Token} {ts : List Term} (h : IsTerms tokens ts) :
    Token.endOfText ∉ tokens := by
  induction h with
  | last hterm => cases hterm <;> simp
  | more hterm _ ih => cases hterm <;> simp [ih]

theorem IsAtom.endOfText_notMem {tokens : List Token} {a : Atom} (h : IsAtom tokens a) :
    Token.endOfText ∉ tokens := by
  cases h with
  | applied p hterms => simp [hterms.endOfText_notMem]
  | _ => simp

theorem IsBody.endOfText_notMem {tokens : List Token} {as : List Atom} (h : IsBody tokens as) :
    Token.endOfText ∉ tokens := by
  induction h with
  | last hatom => exact hatom.endOfText_notMem
  | more hatom _ ih => simp [hatom.endOfText_notMem, ih]

theorem IsClause.endOfText_notMem {tokens : List Token} {c : Clause} (h : IsClause tokens c) :
    Token.endOfText ∉ tokens := by
  cases h with
  | fact hatom => simp [hatom.endOfText_notMem]
  | rule hhead hbody => simp [hhead.endOfText_notMem, hbody.endOfText_notMem]

theorem IsProgram.endOfText_notMem {tokens : List Token} {cs : List Clause}
    (h : IsProgram tokens cs) : Token.endOfText ∉ tokens := by
  induction h with
  | nil => exact List.not_mem_nil
  | cons hclause _ ih => simp [hclause.endOfText_notMem, ih]

theorem IsSoleAtom.endOfText_notMem {tokens : List Token} {a : Atom} (h : IsSoleAtom tokens a) :
    Token.endOfText ∉ tokens := by
  cases h with
  | plain hatom => exact hatom.endOfText_notMem
  | period hatom => simp [hatom.endOfText_notMem]

/-! ## Rules that know where they are stuck -/

/-- A rule accepts only what can be derived, is never stuck on anything that can be, and otherwise
is stuck where something can go on, and again there in front of anything that begins alike. -/
structure Judges (rule : List Lexeme → Except (Stop × List Lexeme) α)
    (R : List Token → α → Prop) : Prop where
  /-- What is accepted can be derived. -/
  derives : ∀ {ls a}, rule ls = .ok a → R (tokensOf ls) a
  /-- The rule is not stuck on anything that can be derived. -/
  not_stuck : ∀ {ls expected rest}, Derives R (tokensOf ls) →
    rule ls ≠ .error (.stuck expected, rest)
  /-- Where the rule is stuck, something can go on. -/
  stuckIn : ∀ {ls expected rest}, rule ls = .error (.stuck expected, rest) →
    StuckIn (Sentence R) ls (.stuck expected, rest)
  /-- The rule is stuck there, whatever follows. -/
  onward : ∀ {ls expected rest}, rule ls = .error (.stuck expected, rest) →
    ∃ front, ls = front ++ rest ∧ ∀ rest', SameNext rest rest' →
      rule (front ++ rest') = .error (.stuck expected, rest')
  /-- The end is no part of what can be derived. -/
  endOfText_notMem : ∀ {tokens a}, R tokens a → Token.endOfText ∉ tokens

theorem judges_readClauses : Judges readClauses IsProgram where
  derives h := (readClauses_eq_ok_iff.mp h).1
  not_stuck := fun ⟨_, h⟩ => not_stuck_of_isProgram h
  stuckIn := stuckIn_of_readClauses
  onward := readClauses_onward
  endOfText_notMem := IsProgram.endOfText_notMem

theorem isSoleAtom_iff {tokens : List Token} {a : Atom} :
    IsSoleAtom tokens a ↔
      ∃ front, IsAtom front a ∧ (tokens = front ∨ tokens = front ++ [.period]) := by
  constructor
  · rintro (h | h)
    · exact ⟨_, h, Or.inl rfl⟩
    · exact ⟨_, h, Or.inr rfl⟩
  · rintro ⟨front, h, rfl | rfl⟩
    · exact .plain h
    · exact .period h

theorem judges_readSoleAtom : Judges readSoleAtom IsSoleAtom where
  derives h := isSoleAtom_iff.mpr (readSoleAtom_eq_ok_iff.mp h)
  not_stuck := by
    rintro ls expected rest ⟨a, h⟩
    rw [readSoleAtom_eq_ok_iff.mpr (isSoleAtom_iff.mp h)]
    exact fun heq => by cases heq
  stuckIn := stuckIn_of_readSoleAtom
  onward := readSoleAtom_onward
  endOfText_notMem := IsSoleAtom.endOfText_notMem

theorem readSoleAtom_ne_illFormed {ls rest : List Lexeme} {e : IllFormed} :
    readSoleAtom ls ≠ .error (.illFormed e, rest) := by
  intro h
  unfold readSoleAtom at h
  split at h
  · next hatom =>
    cases h
    obtain ⟨expected, _, hstop, -⟩ := stuckIn_of_readAtom hatom
    cases hstop
  all_goals cases h

section Judges

variable {rule : List Lexeme → Except (Stop × List Lexeme) α} {R : List Token → α → Prop}
  {ls rest : List Lexeme} {expected : List Token.Kind}

/-- A sentence that begins as given ends where the text would. -/
theorem exists_of_sentence {front : List Lexeme} {token : Token} {more : List Token}
    (h : Sentence R (tokensOf front ++ token :: more)) :
    ∃ rest, Derives R (tokensOf (front ++ rest)) ∧
      (tokensOf rest ++ [Token.endOfText]).head? = some token := by
  obtain ⟨tokens, hderives, heq⟩ := h
  obtain ⟨back, last, hback⟩ : ∃ back last, token :: more = back ++ [last] :=
    ⟨_, _, (List.dropLast_append_getLast (List.cons_ne_nil token more)).symm⟩
  rw [hback, ← List.append_assoc] at heq
  obtain ⟨rfl, hlast⟩ := List.append_inj' heq rfl
  obtain rfl := (List.cons.inj hlast).1
  obtain ⟨rest, rfl⟩ := exists_lexemes back
  rw [← tokensOf_append] at hderives
  exact ⟨rest, hderives, by rw [← hback]; rfl⟩

/-- Where the end is no part of two lists, it tells whether something comes next. -/
theorem sameNext_of_head? {ls' : List Lexeme} (hls : Token.endOfText ∉ tokensOf ls)
    (hls' : Token.endOfText ∉ tokensOf ls')
    (h : (tokensOf ls ++ [Token.endOfText]).head? = (tokensOf ls' ++ [Token.endOfText]).head?) :
    SameNext ls ls' := by
  cases ls with
  | nil =>
    cases ls' with
    | nil => rfl
    | cons l' ls' => exact absurd (List.mem_cons.mpr (Or.inl (Option.some.inj h))) hls'
  | cons l ls =>
    cases ls' with
    | nil => exact absurd (List.mem_cons.mpr (Or.inl (Option.some.inj h).symm)) hls
    | cons l' ls' => exact h

/-- **A rule is stuck in front of the first token with which nothing can be continued.** -/
theorem Judges.stuck_at_first (h : Judges rule R) (hend : Token.endOfText ∉ tokensOf ls)
    (hstuck : rule ls = .error (.stuck expected, rest)) :
    ∃ front, ls = front ++ rest ∧ Admits (Sentence R) (tokensOf front) expected ∧
      ∀ token, (tokensOf rest ++ [Token.endOfText]).head? = some token →
        ¬Viable (Sentence R) (tokensOf front ++ [token]) := by
  obtain ⟨front, rfl, honward⟩ := h.onward hstuck
  obtain ⟨_, front', hstop, heq, hadmits⟩ := h.stuckIn hstuck
  obtain rfl := List.append_cancel_right heq
  cases hstop
  refine ⟨front, rfl, hadmits, ?_⟩
  -- What could follow would be derived with the same lexeme next, and the rule still stuck on it.
  rintro token htoken ⟨more, hsentence⟩
  rw [List.append_assoc, List.singleton_append] at hsentence
  obtain ⟨rest', hderives, htoken'⟩ := exists_of_sentence hsentence
  obtain ⟨a, ha⟩ := hderives
  have hend' := h.endOfText_notMem ha
  rw [tokensOf_append] at hend hend'
  refine h.not_stuck ⟨a, ha⟩ (honward rest' (sameNext_of_head? ?_ ?_ (htoken.trans htoken'.symm)))
  · exact fun hmem => hend (List.mem_append_right _ hmem)
  · exact fun hmem => hend' (List.mem_append_right _ hmem)

end Judges

end Grammar

/-! ## Texts -/

theorem Token.tokensOf_lexemesFrom (offset : Nat) (ps : List Piece) :
    Grammar.tokensOf (Token.lexemesFrom offset ps) = ps.map Piece.token := by
  induction ps generalizing offset with
  | nil => rfl
  | cons p ps ih => rw [lexemesFrom, Grammar.tokensOf_cons, ih, List.map_cons]

/-- The end of a text is told once, behind all tokens that are found in it. -/
theorem Token.endOfText_notMem_scan (offset : Nat) (cs : List Char) :
    Token.endOfText ∉ Grammar.tokensOf (Token.scan offset cs).1 := by
  obtain ⟨ps, gap, unread, hmunches, hscan⟩ := Token.scan_munches offset cs
  rw [hscan, tokensOf_lexemesFrom]
  intro hmem
  obtain ⟨p, hp, htoken⟩ := List.mem_map.mp hmem
  have hwritten := hmunches.writtenAs hp
  rw [htoken] at hwritten
  exact hwritten

namespace Grammar

/-- The first token with which the items of a text begin nothing of a class, and kinds of tokens
that could stand in its place. -/
def FirstOffence (Class : List Token → Prop) (items : List TokenStream.Item)
    (e : UnexpectedToken) : Prop :=
  ∃ front l rest, items = front.map .ok ++ .ok l :: rest ∧
    e.found = l.token.text ∧ e.offset = l.offset ∧
    Viable Class (tokensOf front) ∧ ¬Viable Class (tokensOf (front ++ [l])) ∧
    Admits Class (tokensOf front) e.expected

variable {rule : List Lexeme → Except (Stop × List Lexeme) α} {R : List Token → α → Prop}
  {ls : List Lexeme} {ending : Token.Ending}

/-- Tokens in front of all items are tokens of the text, unless the end is among them. -/
theorem exists_of_items {front : List Lexeme} {rest : List TokenStream.Item}
    (hfront : Token.endOfText ∉ tokensOf front)
    (h : ls.map .ok ++ [ending.item] = front.map .ok ++ rest) : ∃ after, ls = front ++ after := by
  induction front generalizing ls with
  | nil => exact ⟨ls, rfl⟩
  | cons l front ih =>
    obtain ⟨hl, hothers⟩ := not_or.mp fun hor => hfront (List.mem_cons.mpr hor)
    cases ls with
    | nil =>
      have hlast : ending.item = .ok l := (List.cons.inj h).1
      cases ending with
      | finished offset =>
        obtain rfl := Except.ok.inj hlast
        exact absurd rfl hl
      | unreadable e => cases hlast
    | cons l' ls =>
      obtain ⟨hsame, hrest⟩ := List.cons.inj h
      obtain rfl := Except.ok.inj hsame
      obtain ⟨after, rfl⟩ := ih hothers hrest
      exact ⟨after, rfl⟩

/-- What a rule reports as unexpected is the first offence. -/
theorem Judges.firstOffence (h : Judges rule R) (hend : Token.endOfText ∉ tokensOf ls)
    {e : UnexpectedToken} (he : Reader.verdict (rule ls) ending = .error (.unexpected e)) :
    FirstOffence (Sentence R) (ls.map .ok ++ [ending.item]) e := by
  obtain ⟨rest, l, after, hstuck, hitems, hfound, hoffset⟩ := Reader.stuck_of_verdict he
  obtain ⟨front, rfl, hadmits, hnot⟩ := h.stuck_at_first hend hstuck
  have hl : (tokensOf rest ++ [Token.endOfText]).head? = some l.token := by
    cases rest with
    | cons l' rest =>
      cases hitems
      rfl
    | nil =>
      cases ending with
      | unreadable e => cases hitems
      | finished offset =>
        cases hitems
        rfl
  refine ⟨front, l, after, ?_, hfound, hoffset, hadmits.viable, ?_, hadmits⟩
  · rw [List.map_append, List.append_assoc, hitems]
  · rw [tokensOf_append]
    exact hnot _ hl

/-- An unreadable place is reported if what stands in front of it could go on, and if no clause in
front of it is refused. -/
theorem Judges.unreadable_iff (h : Judges rule R) (hend : Token.endOfText ∉ tokensOf ls)
    {e : UnreadableText} :
    Reader.verdict (rule ls) ending = .error (.unreadable e) ↔
      ∃ front, ls.map .ok ++ [ending.item] = front.map .ok ++ [.error e] ∧
        Viable (Sentence R) (tokensOf front) ∧
          ∀ e' rest, rule front ≠ .error (.illFormed e', rest) := by
  rw [Reader.verdict_eq_unreadable_iff]
  constructor
  · rintro ⟨rfl, ⟨a, hok⟩ | ⟨expected, hstuck⟩⟩
    · refine ⟨ls, rfl, ⟨[.endOfText], _, ⟨a, h.derives hok⟩, rfl⟩, fun e' rest hrefused => ?_⟩
      rw [hok] at hrefused
      cases hrefused
    · obtain ⟨front, hfront, hadmits, -⟩ := h.stuck_at_first hend hstuck
      rw [List.append_nil] at hfront
      obtain rfl := hfront
      refine ⟨ls, rfl, hadmits.viable, fun e' rest hrefused => ?_⟩
      rw [hstuck] at hrefused
      cases hrefused
  · rintro ⟨front, hitems, hviable, hnot⟩
    obtain ⟨hlexemes, hlast⟩ := List.append_inj' hitems rfl
    obtain rfl := Function.Injective.list_map (fun _ _ => Except.ok.inj) hlexemes
    obtain rfl : ending = .unreadable e := by
      cases ending with
      | finished offset => cases hlast
      | unreadable e' =>
        cases hlast
        rfl
    refine ⟨rfl, ?_⟩
    match hrule : rule ls with
    | .ok a => exact Or.inl ⟨a, rfl⟩
    | .error (.illFormed e', rest) => exact absurd hrule (hnot e' rest)
    | .error (.stuck expected, []) => exact Or.inr ⟨expected, rfl⟩
    | .error (.stuck expected, l :: rest) =>
      obtain ⟨front', rfl, -, hoffence⟩ := h.stuck_at_first hend hrule
      rw [tokensOf_append, tokensOf_cons, List.append_cons] at hviable
      exact absurd hviable.of_append (hoffence _ rfl)

/-- A fact with a variable is reported where the items begin with it, behind clauses that are
accepted. -/
theorem illFormed_iff {e : IllFormed} :
    Reader.verdict (readClauses ls) ending = .error (.illFormed e) ↔
      ∃ before clause rest a x, ls.map .ok ++ [ending.item] = (before ++ clause).map .ok ++ rest ∧
        FirstOpenFact (tokensOf before) (tokensOf clause) a ∧ a.vars.head? = some x ∧
          e = .ungroundedFact a.predicate x (startOffset clause) := by
  rw [Reader.verdict_eq_illFormed_iff]
  simp only [readClauses_eq_illFormed_iff]
  constructor
  · rintro ⟨rest, before, clause, a, x, rfl, hrest⟩
    refine ⟨before, clause, rest.map .ok ++ [ending.item], a, x, ?_, hrest⟩
    rw [← List.append_assoc, List.map_append, List.append_assoc]
  · rintro ⟨before, clause, rest, a, x, hitems, hopen, hx⟩
    obtain ⟨cs, hcs, -⟩ := hopen.before
    have hfront : Token.endOfText ∉ tokensOf (before ++ clause) := by
      simp [hcs.endOfText_notMem, hopen.clause.endOfText_notMem]
    obtain ⟨after, rfl⟩ := exists_of_items hfront hitems
    exact ⟨after, before, clause, a, x, List.append_assoc _ _ _, hopen, hx⟩

end Grammar

open Grammar in
/-- **What is wrong with a text is reported where it begins.**  Of the items that a text consists
of, tokens and what stands behind them, the reading of clauses reports:

* a token, the end included, only if some program begins with the tokens in front of it and none
  with that token as well; and with any token of an expected kind in its place, some program does;
* an unreadable place exactly if some program begins with the tokens in front of it, and no complete
  fact among them has a variable;
* a fact with a variable exactly if it is complete before any other trouble, and the first such
  fact: its predicate, the first variable among its arguments, and the place of its first token.

The reading of a single atom does the same for its grammar, and accepts variables. -/
theorem Clause.refused_at_first_offence (text : String) :
    let items := (TokenStream.ofText text).drain.1
    (∀ e, Clause.listOfText text = .error (.unexpected e) →
      FirstOffence (Sentence IsProgram) items e) ∧
    (∀ e, Clause.listOfText text = .error (.unreadable e) ↔ ∃ front,
      items = front.map .ok ++ [.error e] ∧ Viable (Sentence IsProgram) (tokensOf front) ∧
        ∀ before after cs, front = before ++ after → IsProgram (tokensOf before) cs →
          GroundFacts cs) ∧
    (∀ e, Clause.listOfText text = .error (.illFormed e) ↔ ∃ before clause rest a x,
      items = (before ++ clause).map .ok ++ rest ∧
        FirstOpenFact (tokensOf before) (tokensOf clause) a ∧ a.vars.head? = some x ∧
          e = .ungroundedFact a.predicate x (startOffset clause)) ∧
    (∀ e, Atom.ofText text = .error (.unexpected e) →
      FirstOffence (Sentence IsSoleAtom) items e) ∧
    (∀ e, Atom.ofText text = .error (.unreadable e) ↔ ∃ front,
      items = front.map .ok ++ [.error e] ∧ Viable (Sentence IsSoleAtom) (tokensOf front)) ∧
    ∀ e, Atom.ofText text ≠ .error (.illFormed e) := by
  intro items
  have hend := Token.endOfText_notMem_scan 0 text.toList
  have hitems : items =
      (Token.scan 0 text.toList).1.map .ok ++ [(Token.scan 0 text.toList).2.item] := rfl
  have hclauses := Reader.ofWhole_readAll readClauses text
  have hatom := Reader.ofWhole_readAll readSoleAtom text
  simp only [Clause.listOfText, Atom.ofText, Reader.readClauses, Reader.readAtom, hclauses, hatom,
    hitems]
  refine ⟨fun e => judges_readClauses.firstOffence hend, fun e => ?_, fun e => illFormed_iff,
    fun e => judges_readSoleAtom.firstOffence hend, fun e => ?_, fun e he => ?_⟩
  · refine (judges_readClauses.unreadable_iff hend).trans ?_
    simp only [not_illFormed_iff]
  · refine (judges_readSoleAtom.unreadable_iff hend).trans ?_
    simp only [ne_eq, readSoleAtom_ne_illFormed, not_false_eq_true, implies_true, and_true]
  · obtain ⟨rest, hrefused⟩ := Reader.verdict_eq_illFormed_iff.mp he
    exact readSoleAtom_ne_illFormed hrefused

/-- A fact is refused for its variable once it is complete; before that, an unreadable place counts,
and a token that does not belong there counts before either. -/
example : Clause.listOfText "p(X). $" = .error (.illFormed (.ungroundedFact "p" "X" 0)) ∧
    Clause.listOfText "p(X) $" = .error (.unreadable ⟨5, '$'⟩) ∧
    Clause.listOfText "p(X) , $" =
      .error (.unexpected ⟨Token.comma.text, [.period, .implies], 5⟩) := by
  decide +kernel

end Datalog
