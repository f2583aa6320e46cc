import Datalog.Proofs.Clause.Foresight

/-!
# Where reading is stuck

A list of tokens is *viable* if a text can begin with it.  Where a reader is stuck, the tokens in
front are viable, and they stay so with each of the classes that the reader has asked for.

* `Grammar.Viable`, `Grammar.Admits`: tokens that can be continued, in one way and in several.
* `Grammar.Derives`, `Grammar.Sentence`: the tokens of a class, and of a text with its end.
* `Grammar.StuckIn`: a reader of a class is stuck where tokens of this class can go on.
* `Grammar.stuckIn_of_readTerms` and its likes.

## How the grammar is climbed

A reader is stuck inside a part of what it reads, with other parts taken before.  That part can be
completed, and what is taken before can be completed with any such part; so all that is to be said
of an alternative is how it contains its parts (`StuckIn.within`).
-/

namespace Datalog
namespace Grammar

/-! ## Continuations -/

/-- Some tokens of a class begin with these. -/
def Viable (Class : List Token → Prop) (tokens : List Token) : Prop :=
  ∃ more, Class (tokens ++ more)

/-- Tokens of a class can go on with every token of the given kinds, of which there is one. -/
def Admits (Class : List Token → Prop) (tokens : List Token) (kinds : List Token.Kind) : Prop :=
  kinds ≠ [] ∧ ∀ token : Token, token.kind ∈ kinds → Viable Class (tokens ++ [token])

/-- Something can be derived from the tokens. -/
def Derives {α : Type} (R : List Token → α → Prop) (tokens : List Token) : Prop := ∃ a, R tokens a

/-- The tokens are those of a text, up to its end, from which something can be derived. -/
def Sentence {α : Type} (R : List Token → α → Prop) (tokens : List Token) : Prop :=
  ∃ front, Derives R front ∧ tokens = front ++ [.endOfText]

section Viable

variable {Class Class' : List Token → Prop} {tokens front : List Token} {kinds : List Token.Kind}

theorem Viable.of_class (h : Class tokens) : Viable Class tokens :=
  ⟨[], (List.append_nil tokens).symm ▸ h⟩

theorem Viable.of_append {more : List Token} (h : Viable Class (tokens ++ more)) :
    Viable Class tokens := by
  obtain ⟨more', hclass⟩ := h
  rw [List.append_assoc] at hclass
  exact ⟨more ++ more', hclass⟩

/-- A part can be continued inside a whole. -/
theorem Viable.within (hpart : ∀ part, Class part → Viable Class' (front ++ part))
    (h : Viable Class tokens) : Viable Class' (front ++ tokens) := by
  obtain ⟨more, hclass⟩ := h
  have hwhole := hpart _ hclass
  rw [← List.append_assoc] at hwhole
  exact hwhole.of_append

theorem exists_token (k : Token.Kind) : ∃ token : Token, token.kind = k := by
  cases k with
  | symbol => exact ⟨.symbol "", rfl⟩
  | var => exact ⟨.var "", rfl⟩
  | lparen => exact ⟨.lparen, rfl⟩
  | rparen => exact ⟨.rparen, rfl⟩
  | comma => exact ⟨.comma, rfl⟩
  | period => exact ⟨.period, rfl⟩
  | implies => exact ⟨.implies, rfl⟩
  | endOfText => exact ⟨.endOfText, rfl⟩

theorem Admits.viable (h : Admits Class tokens kinds) : Viable Class tokens := by
  obtain ⟨k, hk⟩ := List.exists_mem_of_ne_nil kinds h.1
  obtain ⟨token, rfl⟩ := exists_token k
  exact (h.2 token hk).of_append

theorem Admits.within (hpart : ∀ part, Class part → Viable Class' (front ++ part))
    (h : Admits Class tokens kinds) : Admits Class' (front ++ tokens) kinds := by
  refine ⟨h.1, fun token htoken => ?_⟩
  rw [List.append_assoc]
  exact (h.2 token htoken).within hpart

end Viable

/-! ## Readers that are stuck -/

/-- Reading is stuck where tokens of a class can go on as expected. -/
def StuckIn (Class : List Token → Prop) (ls : List Lexeme) (e : Stop × List Lexeme) : Prop :=
  ∃ expected front, e.1 = .stuck expected ∧ ls = front ++ e.2 ∧
    Admits Class (tokensOf front) expected

theorem stuckIn_behind {Class : List Token → Prop} {expected : List Token.Kind}
    (front : List Lexeme) (h : Admits Class (tokensOf front) expected) (rest : List Lexeme) :
    StuckIn Class (front ++ rest) (.stuck expected, rest) :=
  ⟨expected, front, rfl, rfl, h⟩

/-- Whoever is stuck in a part is stuck in the whole. -/
theorem StuckIn.within {Class Class' : List Token → Prop} {ls : List Lexeme}
    {e : Stop × List Lexeme} (front : List Lexeme)
    (hpart : ∀ part, Class part → Viable Class' (tokensOf front ++ part))
    (h : StuckIn Class ls e) : StuckIn Class' (front ++ ls) e := by
  obtain ⟨expected, front', hstop, rfl, hadmits⟩ := h
  refine ⟨expected, front ++ front', hstop, (List.append_assoc _ _ _).symm, ?_⟩
  rw [tokensOf_append]
  exact hadmits.within hpart

/-- A part may stand behind one more lexeme, which separates it from what comes before. -/
theorem StuckIn.behind {Class Class' : List Token → Prop} {ls : List Lexeme}
    {e : Stop × List Lexeme} {front : List Lexeme} {separator : Lexeme}
    (hpart : ∀ part, Class part → Viable Class' (tokensOf front ++ separator.token :: part))
    (h : StuckIn Class ls e) : StuckIn Class' (front ++ separator :: ls) e := by
  have hstuck := h.within (front ++ [separator]) fun part hclass => by
    rw [tokensOf_append, List.append_assoc]
    exact hpart part hclass
  rw [List.append_assoc] at hstuck
  exact hstuck

/-- Arguments with the parenthesis that closes them. -/
def IsArguments (tokens : List Token) (ts : List Term) : Prop :=
  ∃ front, IsTerms front ts ∧ tokens = front ++ [.rparen]

theorem exists_isTerm_of_kind {token : Token} (h : token.kind ∈ [Token.Kind.symbol, .var]) :
    ∃ t, IsTerm token t := by
  cases token with
  | symbol name => exact ⟨_, .symbol name⟩
  | var name => exact ⟨_, .var name⟩
  | _ => simp [Token.kind] at h

theorem viable_isArguments_cons {token : Token} {t : Term} (h : IsTerm token t) :
    Viable (Derives IsArguments) [token, .rparen] :=
  .of_class ⟨[t], [token], .last h, rfl⟩

theorem viable_isArguments_comma {token : Token} {t : Term} (h : IsTerm token t)
    {tokens : List Token} (htokens : Derives IsArguments tokens) :
    Viable (Derives IsArguments) (token :: .comma :: tokens) := by
  obtain ⟨ts, front, hterms, rfl⟩ := htokens
  exact .of_class ⟨t :: ts, token :: .comma :: front, .more h hterms, rfl⟩

theorem stuckIn_of_readTerms {ls : List Lexeme} {e : Stop × List Lexeme}
    (h : readTerms ls = .error e) : StuckIn (Derives IsArguments) ls e := by
  have hfirst : Admits (Derives IsArguments) (tokensOf []) [.symbol, .var] := by
    refine ⟨List.cons_ne_nil _ _, fun token htoken => ?_⟩
    obtain ⟨t, ht⟩ := exists_isTerm_of_kind htoken
    exact Viable.of_append (viable_isArguments_cons ht)
  fun_induction readTerms ls with
  | case1 =>
    cases h
    exact stuckIn_behind [] hfirst []
  | case2 l rest =>
    cases h
    exact stuckIn_behind [] hfirst (l :: rest)
  | case3 => cases h
  | case4 l t hl offset rest e' hrest ih =>
    cases h
    exact (ih hrest).within [l, ⟨.comma, offset⟩] fun part =>
      viable_isArguments_comma (term?_eq_some_iff.mp hl)
  | case5 => cases h
  | case6 l rest t hl =>
    cases h
    refine stuckIn_behind [l] ⟨List.cons_ne_nil _ _, fun token htoken => ?_⟩ rest
    have hterm := term?_eq_some_iff.mp hl
    cases token with
    | comma =>
      exact Viable.of_append (viable_isArguments_comma hterm ⟨_, _, .last (.symbol ""), rfl⟩)
    | rparen => exact viable_isArguments_cons hterm
    | _ => simp [Token.kind] at htoken

theorem stuckIn_of_readAtom {ls : List Lexeme} {e : Stop × List Lexeme}
    (h : readAtom ls = .error e) : StuckIn (Derives IsAtom) ls e := by
  unfold readAtom at h
  split at h
  · cases h
  · next p o₁ o₂ rest _ =>
    split at h
    · cases h
    · next hterms =>
      cases h
      refine (stuckIn_of_readTerms hterms).within [⟨.symbol p, o₁⟩, ⟨.lparen, o₂⟩] ?_
      rintro part ⟨ts, front, hts, rfl⟩
      exact .of_class ⟨_, .applied p hts⟩
  · cases h
  · cases h
    refine stuckIn_behind [] ⟨List.cons_ne_nil _ _, fun token htoken => ?_⟩ _
    cases token with
    | symbol p => exact .of_class ⟨_, .bare p⟩
    | _ => simp [Token.kind] at htoken

theorem stuckIn_of_readBody {ls : List Lexeme} {e : Stop × List Lexeme}
    (h : readBody ls = .error e) : StuckIn (Derives IsBody) ls e := by
  fun_induction readBody ls with
  | case1 ls e' hatom =>
    cases h
    refine (stuckIn_of_readAtom hatom).within [] ?_
    rintro part ⟨a, ha⟩
    exact .of_class ⟨_, .last ha⟩
  | case2 => cases h
  | case3 ls a offset rest hatom hlt e' hbody ih =>
    cases h
    obtain ⟨front, rfl, hfront⟩ := isAtom_of_readAtom hatom
    refine (ih hbody).behind ?_
    rintro part ⟨as, has⟩
    exact .of_class ⟨_, .more hfront has⟩
  | case4 => cases h

theorem viable_isClause_head {tokens : List Token} (h : Derives IsAtom tokens) :
    Viable (Derives IsClause) tokens := by
  obtain ⟨a, ha⟩ := h
  exact ⟨[.period], _, .fact ha⟩

theorem viable_isClause_body {tokens tokens' : List Token} (h : Derives IsAtom tokens)
    (h' : Derives IsBody tokens') : Viable (Derives IsClause) (tokens ++ .implies :: tokens') := by
  obtain ⟨a, ha⟩ := h
  obtain ⟨as, has⟩ := h'
  refine ⟨[.period], .rule ⟨a, as⟩, ?_⟩
  rw [List.append_assoc, List.cons_append]
  exact .rule ha has

theorem stuckIn_of_readClause {ls rest : List Lexeme} {expected : List Token.Kind}
    (h : readClause ls = .error (.stuck expected, rest)) :
    StuckIn (Derives IsClause) ls (.stuck expected, rest) := by
  unfold readClause at h
  split at h
  · next hhead =>
    cases h
    exact (stuckIn_of_readAtom hhead).within [] fun part => viable_isClause_head
  · split at h <;> cases h
  · next head offset ls' hhead =>
    obtain ⟨front, rfl, hfront⟩ := isAtom_of_readAtom hhead
    split at h
    · next hbody =>
      cases h
      exact (stuckIn_of_readBody hbody).behind fun part => viable_isClause_body ⟨_, hfront⟩
    · cases h
    · next body after _ hbody =>
      cases h
      obtain ⟨front', rfl, hfront'⟩ := isBody_of_readBody hbody
      have hadmits : Admits (Derives IsClause) (tokensOf (front ++ ⟨.implies, offset⟩ :: front'))
          [.period] := by
        refine ⟨List.cons_ne_nil _ _, fun token htoken => ?_⟩
        cases token with
        | period =>
          rw [tokensOf_append, tokensOf_cons, List.append_assoc, List.cons_append]
          exact .of_class ⟨_, .rule hfront hfront'⟩
        | _ => simp [Token.kind] at htoken
      have hstuck := stuckIn_behind _ hadmits rest
      rw [List.append_assoc, List.cons_append] at hstuck
      exact hstuck
  · next head after _ _ hhead =>
    cases h
    obtain ⟨front, rfl, hfront⟩ := isAtom_of_readAtom hhead
    refine stuckIn_behind front ⟨List.cons_ne_nil _ _, fun token htoken => ?_⟩ rest
    cases token with
    | period => exact .of_class ⟨_, .fact hfront⟩
    | implies =>
      have hrule := viable_isClause_body ⟨_, hfront⟩ ⟨_, .last (.bare "")⟩
      rw [List.append_cons] at hrule
      exact hrule.of_append
    | _ => simp [Token.kind] at htoken

/-! ## Whole texts -/

/-- An atom, with or without a period. -/
inductive IsSoleAtom : List Token → Atom → Prop
  | plain {tokens : List Token} {a : Atom} : IsAtom tokens a → IsSoleAtom tokens a
  | period {tokens : List Token} {a : Atom} :
      IsAtom tokens a → IsSoleAtom (tokens ++ [.period]) a

theorem stuckIn_of_readClauses {ls rest : List Lexeme} {expected : List Token.Kind}
    (h : readClauses ls = .error (.stuck expected, rest)) :
    StuckIn (Sentence IsProgram) ls (.stuck expected, rest) := by
  fun_induction readClauses ls with
  | case1 => cases h
  | case2 ls hls e hclause =>
    cases h
    refine (stuckIn_of_readClause hclause).within [] ?_
    rintro part ⟨c, hc⟩
    have hprogram := IsProgram.cons hc .nil
    rw [List.append_nil] at hprogram
    exact ⟨[.endOfText], part, ⟨_, hprogram⟩, rfl⟩
  | case3 => cases h
  | case4 ls hls c ls' hclause hlt e hrest ih =>
    cases h
    obtain ⟨⟨front, rfl, hfront⟩, -⟩ := isClause_of_readClause hclause
    refine (ih hrest).within front ?_
    rintro part ⟨others, ⟨cs, hcs⟩, rfl⟩
    exact .of_class ⟨_, ⟨_, .cons hfront hcs⟩, (List.append_assoc _ _ _).symm⟩

theorem stuckIn_of_readSoleAtom {ls rest : List Lexeme} {expected : List Token.Kind}
    (h : readSoleAtom ls = .error (.stuck expected, rest)) :
    StuckIn (Sentence IsSoleAtom) ls (.stuck expected, rest) := by
  have hend : ∀ front, Derives IsSoleAtom (tokensOf front) →
      StuckIn (Sentence IsSoleAtom) (front ++ rest) (.stuck [.endOfText], rest) := by
    intro front hfront
    refine stuckIn_behind front ⟨List.cons_ne_nil _ _, fun token htoken => ?_⟩ rest
    cases token with
    | endOfText => exact .of_class ⟨_, hfront, rfl⟩
    | _ => simp [Token.kind] at htoken
  unfold readSoleAtom at h
  split at h
  · next hatom =>
    cases h
    refine (stuckIn_of_readAtom hatom).within [] ?_
    rintro part ⟨a, ha⟩
    exact ⟨[.endOfText], part, ⟨_, .plain ha⟩, rfl⟩
  · cases h
  · cases h
  · next a offset after _ hatom =>
    cases h
    obtain ⟨front, rfl, hfront⟩ := isAtom_of_readAtom hatom
    have hperiod : Derives IsSoleAtom (tokensOf (front ++ [⟨.period, offset⟩])) := by
      rw [tokensOf_append]
      exact ⟨_, .period hfront⟩
    have hstuck := hend _ hperiod
    rw [List.append_assoc] at hstuck
    exact hstuck
  · next a after _ _ _ hatom =>
    cases h
    obtain ⟨front, rfl, hfront⟩ := isAtom_of_readAtom hatom
    exact hend front ⟨_, .plain hfront⟩

end Grammar
end Datalog
