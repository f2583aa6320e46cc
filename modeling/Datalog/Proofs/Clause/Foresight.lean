import Datalog.Proofs.Clause.Grammar

/-!
# One lexeme of foresight

What the readers of the grammar make of lexemes depends on those they take, and on the token of
the one behind them; neither the lexemes after that nor the places of those left matter.

* `Grammar.Reading.left`, `Reading.leaving`: what a reading has left, and the same reading with
  another rest.
* `Grammar.SameNext`: the same token comes next, or in both cases none.
* `Grammar.OneAhead`: reading with one lexeme of foresight; `oneAhead_readTerms`,
  `oneAhead_readAtom`, `oneAhead_readBody` and `oneAhead_readClause`.
* `Grammar.readClauses_onward`, `readSoleAtom_onward`: reading is stuck at the same place, whatever
  stands behind it.

## Why the next token is part of the condition

A symbol at the end of a text is an atom, and in front of a parenthesis it is not; so a reading may
succeed or fail for what stands *behind* the lexemes that it takes.  The readers look there once,
and what they see is again the first token of what is left.  The condition that this token is the
same goes through the grammar for that reason: behind the first of two parts stands the second one,
and if that is empty then whatever stands behind both.
-/

namespace Datalog
namespace Grammar

variable {α : Type}

/-! ## Readings and what they have left -/

/-- The lexemes that have not been taken. -/
def Reading.left : Reading α → List Lexeme
  | .ok (_, rest) => rest
  | .error (_, rest) => rest

/-- The same reading in front of other lexemes. -/
def Reading.leaving (rest : List Lexeme) : Reading α → Reading α
  | .ok (a, _) => .ok (a, rest)
  | .error (stop, _) => .error (stop, rest)

/-- The same token comes next, or none does. -/
def SameNext (ls ls' : List Lexeme) : Prop := (tokensOf ls).head? = (tokensOf ls').head?

theorem SameNext.append {rest rest' : List Lexeme} (h : SameNext rest rest')
    (front : List Lexeme) : SameNext (front ++ rest) (front ++ rest') := by
  cases front with
  | nil => exact h
  | cons l front => rfl

theorem SameNext.notNext {ls ls' : List Lexeme} (h : SameNext ls ls') {token : Token}
    (hls : NotNext token ls) : NotNext token ls' :=
  fun heq => hls (h.trans heq)

theorem SameNext.eq_nil {ls' : List Lexeme} (h : SameNext [] ls') : ls' = [] :=
  tokensOf_eq_nil_iff.mp (List.head?_eq_none_iff.mp h.symm)

theorem SameNext.ne_nil {ls ls' : List Lexeme} (h : SameNext ls ls') (hls : ls ≠ []) :
    ls' ≠ [] := by
  rintro rfl
  exact hls (SameNext.eq_nil (Eq.symm h))

theorem SameNext.exists_cons {l : Lexeme} {ls ls' : List Lexeme} (h : SameNext (l :: ls) ls') :
    ∃ l' ls'', ls' = l' :: ls'' ∧ l'.token = l.token := by
  obtain ⟨tokens, htokens⟩ := List.head?_eq_some_iff.mp h.symm
  obtain ⟨offset, ls'', rfl, -⟩ := tokensOf_eq_cons_iff.mp htokens
  exact ⟨⟨l.token, offset⟩, ls'', rfl, rfl⟩

/-- A list that does not begin as a pattern asks for has another token next, or none. -/
theorem notNext_of_forall_ne {token : Token} {ls : List Lexeme}
    (h : ∀ offset rest, ls = ⟨token, offset⟩ :: rest → False) : NotNext token ls := by
  intro heq
  obtain ⟨tokens, htokens⟩ := List.head?_eq_some_iff.mp heq
  obtain ⟨offset, rest, hcons, -⟩ := tokensOf_eq_cons_iff.mp htokens
  exact h offset rest hcons

/-- Reading with one lexeme of foresight. -/
def OneAhead (read : List Lexeme → Reading α) : Prop :=
  ∀ ls, ∃ front, ls = front ++ (read ls).left ∧
    ∀ rest, SameNext (read ls).left rest → read (front ++ rest) = (read ls).leaving rest

section OneAhead

variable {read : List Lexeme → Reading α}

theorem OneAhead.of_ok (h : OneAhead read) {ls rest : List Lexeme} {a : α}
    (hread : read ls = .ok (a, rest)) :
    ∃ front, ls = front ++ rest ∧
      ∀ rest', SameNext rest rest' → read (front ++ rest') = .ok (a, rest') := by
  have hls := h ls
  rw [hread] at hls
  exact hls

theorem OneAhead.of_error (h : OneAhead read) {ls rest : List Lexeme} {stop : Stop}
    (hread : read ls = .error (stop, rest)) :
    ∃ front, ls = front ++ rest ∧
      ∀ rest', SameNext rest rest' → read (front ++ rest') = .error (stop, rest') := by
  have hls := h ls
  rw [hread] at hls
  exact hls

end OneAhead

/-! ## Arguments and atoms -/

theorem readTerms_of_not_term {l : Lexeme} (hl : term? l.token = none) (rest : List Lexeme) :
    readTerms (l :: rest) = stuck [.symbol, .var] (l :: rest) := by
  rw [readTerms, hl]

theorem readTerms_of_comma {l : Lexeme} {t : Term} (hl : term? l.token = some t) (offset : Nat)
    (rest : List Lexeme) :
    readTerms (l :: ⟨.comma, offset⟩ :: rest) =
      match readTerms rest with
      | .ok (ts, after) => .ok (t :: ts, after)
      | .error e => .error e := by
  cases hrest : readTerms rest <;> simp only [readTerms, hl, hrest]

theorem readTerms_of_notNext {l : Lexeme} {t : Term} (hl : term? l.token = some t)
    {rest : List Lexeme} (hcomma : NotNext .comma rest) (hrparen : NotNext .rparen rest) :
    readTerms (l :: rest) = stuck [.comma, .rparen] rest := by
  rw [readTerms, hl]
  cases rest with
  | nil => rfl
  | cons next rest =>
    obtain ⟨token, offset⟩ := next
    cases token with
    | comma => exact absurd rfl hcomma
    | rparen => exact absurd rfl hrparen
    | _ => rfl

theorem oneAhead_readTerms : OneAhead readTerms := by
  intro ls
  fun_induction readTerms ls with
  | case1 => exact ⟨[], rfl, fun rest hrest => by rw [hrest.eq_nil]; rfl⟩
  | case2 l rest hl =>
    refine ⟨[], rfl, fun rest' hrest' => ?_⟩
    obtain ⟨l', rest'', rfl, htoken⟩ := hrest'.exists_cons
    rw [← htoken] at hl
    exact readTerms_of_not_term hl rest''
  | case3 l t hl offset rest ts after hrest ih =>
    rw [hrest] at ih
    obtain ⟨front, rfl, honward⟩ := ih
    refine ⟨l :: ⟨.comma, offset⟩ :: front, rfl, fun rest' hrest' => ?_⟩
    rw [List.cons_append, List.cons_append, readTerms_of_comma hl, honward rest' hrest']
    rfl
  | case4 l t hl offset rest e hrest ih =>
    rw [hrest] at ih
    obtain ⟨front, hfront, honward⟩ := ih
    refine ⟨l :: ⟨.comma, offset⟩ :: front, congrArg (l :: ⟨.comma, offset⟩ :: ·) hfront,
      fun rest' hrest' => ?_⟩
    rw [List.cons_append, List.cons_append, readTerms_of_comma hl, honward rest' hrest']
    rfl
  | case5 l t hl offset rest =>
    refine ⟨[l, ⟨.rparen, offset⟩], rfl, fun rest' _ => ?_⟩
    show readTerms (l :: ⟨.rparen, offset⟩ :: rest') = .ok ([t], rest')
    rw [readTerms, hl]
  | case6 l rest t hl hcomma hrparen =>
    refine ⟨[l], rfl, fun rest' hrest' => ?_⟩
    exact readTerms_of_notNext hl (hrest'.notNext (notNext_of_forall_ne hcomma))
      (hrest'.notNext (notNext_of_forall_ne hrparen))

theorem readAtom_of_not_symbol {ls : List Lexeme} (h : ∀ p, NotNext (.symbol p) ls) :
    readAtom ls = stuck [.symbol] ls := by
  cases ls with
  | nil => rfl
  | cons next ls =>
    obtain ⟨token, offset⟩ := next
    cases token with
    | symbol p => exact absurd rfl (h p)
    | _ => rfl

theorem oneAhead_readAtom : OneAhead readAtom := by
  intro ls
  fun_cases readAtom ls with
  | case1 p o₁ o₂ o₃ rest =>
    exact ⟨[⟨.symbol p, o₁⟩, ⟨.lparen, o₂⟩, ⟨.rparen, o₃⟩], rfl, fun _ _ => rfl⟩
  -- The arguments begin as before, so the parenthesis is not closed at once.
  | case2 p o₁ o₂ rest hrparen ts after hterms =>
    obtain ⟨front, rfl, honward⟩ := oneAhead_readTerms.of_ok hterms
    refine ⟨⟨.symbol p, o₁⟩ :: ⟨.lparen, o₂⟩ :: front, rfl, fun rest' hrest' => ?_⟩
    have hnext := (hrest'.append front).notNext (notNext_of_forall_ne hrparen)
    rw [List.cons_append, List.cons_append, readAtom_of_lparen p o₁ o₂ hnext, honward rest' hrest']
    rfl
  | case3 p o₁ o₂ rest hrparen e hterms =>
    obtain ⟨stop, after⟩ := e
    obtain ⟨front, rfl, honward⟩ := oneAhead_readTerms.of_error hterms
    refine ⟨⟨.symbol p, o₁⟩ :: ⟨.lparen, o₂⟩ :: front, rfl, fun rest' hrest' => ?_⟩
    have hnext := (hrest'.append front).notNext (notNext_of_forall_ne hrparen)
    rw [List.cons_append, List.cons_append, readAtom_of_lparen p o₁ o₂ hnext, honward rest' hrest']
    rfl
  | case4 p o rest hempty hlparen =>
    refine ⟨[⟨.symbol p, o⟩], rfl, fun rest' hrest' => ?_⟩
    exact readAtom_bare p o (hrest'.notNext (notNext_of_forall_ne hlparen))
  | case5 _ _ _ hbare =>
    refine ⟨[], rfl, fun rest' hrest' => ?_⟩
    exact readAtom_of_not_symbol fun p => hrest'.notNext (notNext_of_forall_ne (hbare p))

/-! ## Bodies and clauses -/

theorem readBody_of_error {ls : List Lexeme} {e : Stop × List Lexeme}
    (hatom : readAtom ls = .error e) : readBody ls = .error e := by
  rw [readBody]
  split
  · next heq =>
    rw [hatom] at heq
    cases heq
    rfl
  · next heq =>
    rw [hatom] at heq
    cases heq
  · next heq =>
    rw [hatom] at heq
    cases heq

theorem oneAhead_readBody : OneAhead readBody := by
  intro ls
  fun_induction readBody ls with
  | case1 ls e hatom =>
    obtain ⟨stop, after⟩ := e
    obtain ⟨front, rfl, honward⟩ := oneAhead_readAtom.of_error hatom
    exact ⟨front, rfl, fun rest hrest => readBody_of_error (honward rest hrest)⟩
  | case2 ls a offset rest hatom hlt as after hbody ih =>
    rw [hbody] at ih
    obtain ⟨front, rfl, honward⟩ := oneAhead_readAtom.of_ok hatom
    obtain ⟨front', rfl, honward'⟩ := ih
    refine ⟨front ++ ⟨.comma, offset⟩ :: front', by simp [Reading.left], fun rest' hrest' => ?_⟩
    have hatom' := honward (⟨.comma, offset⟩ :: (front' ++ rest')) rfl
    rw [List.append_assoc, List.cons_append, readBody_of_comma hatom', honward' rest' hrest']
    rfl
  | case3 ls a offset rest hatom hlt e hbody ih =>
    obtain ⟨stop, after⟩ := e
    rw [hbody] at ih
    obtain ⟨front, rfl, honward⟩ := oneAhead_readAtom.of_ok hatom
    obtain ⟨front', rfl, honward'⟩ := ih
    refine ⟨front ++ ⟨.comma, offset⟩ :: front', by simp [Reading.left], fun rest' hrest' => ?_⟩
    have hatom' := honward (⟨.comma, offset⟩ :: (front' ++ rest')) rfl
    rw [List.append_assoc, List.cons_append, readBody_of_comma hatom', honward' rest' hrest']
    rfl
  | case4 ls a rest hne hatom =>
    obtain ⟨front, rfl, honward⟩ := oneAhead_readAtom.of_ok hatom
    refine ⟨front, rfl, fun rest' hrest' => ?_⟩
    exact readBody_of_notNext (honward rest' hrest') (hrest'.notNext (notNext_of_forall_ne hne))

theorem readClause_of_notNext {ls rest : List Lexeme} {head : Atom}
    (hhead : readAtom ls = .ok (head, rest)) (hperiod : NotNext .period rest)
    (himplies : NotNext .implies rest) : readClause ls = stuck [.period, .implies] rest := by
  simp only [readClause, hhead]
  cases rest with
  | nil => rfl
  | cons next rest =>
    obtain ⟨token, offset⟩ := next
    cases token with
    | period => exact absurd rfl hperiod
    | implies => exact absurd rfl himplies
    | _ => rfl

theorem readClause_of_body_notNext {ls ls' rest : List Lexeme} {head : Atom} {body : List Atom}
    {offset : Nat} (hhead : readAtom ls = .ok (head, ⟨.implies, offset⟩ :: ls'))
    (hbody : readBody ls' = .ok (body, rest)) (hperiod : NotNext .period rest) :
    readClause ls = stuck [.period] rest := by
  simp only [readClause, hhead, hbody]
  cases rest with
  | nil => rfl
  | cons next rest =>
    obtain ⟨token, offset⟩ := next
    cases token with
    | period => exact absurd rfl hperiod
    | _ => rfl

theorem oneAhead_readClause : OneAhead readClause := by
  intro ls
  fun_cases readClause ls with
  | case1 e hhead =>
    obtain ⟨stop, after⟩ := e
    obtain ⟨front, rfl, honward⟩ := oneAhead_readAtom.of_error hhead
    refine ⟨front, rfl, fun rest' hrest' => ?_⟩
    rw [readClause, honward rest' hrest']
    rfl
  | case2 head offset rest hhead hvars =>
    obtain ⟨front, rfl, honward⟩ := oneAhead_readAtom.of_ok hhead
    refine ⟨front ++ [⟨.period, offset⟩], by simp [Reading.left], fun rest' _ => ?_⟩
    have hhead' := honward (⟨.period, offset⟩ :: rest') rfl
    rw [List.append_assoc, List.singleton_append]
    simp only [readClause, hhead', hvars]
    rfl
  | case3 head offset rest hhead x xs hvars =>
    obtain ⟨front, rfl, honward⟩ := oneAhead_readAtom.of_ok hhead
    refine ⟨front ++ [⟨.period, offset⟩], by simp [Reading.left], fun rest' _ => ?_⟩
    have hhead' := honward (⟨.period, offset⟩ :: rest') rfl
    have hstart : startOffset (front ++ ⟨.period, offset⟩ :: rest') =
        startOffset (front ++ ⟨.period, offset⟩ :: rest) := by
      cases front <;> rfl
    rw [List.append_assoc, List.singleton_append]
    simp only [readClause, hhead', hvars, hstart]
    rfl
  | case4 head offset rest hhead e hbody =>
    obtain ⟨stop, after⟩ := e
    obtain ⟨front, rfl, honward⟩ := oneAhead_readAtom.of_ok hhead
    obtain ⟨front', rfl, honward'⟩ := oneAhead_readBody.of_error hbody
    refine ⟨front ++ ⟨.implies, offset⟩ :: front', by simp [Reading.left], fun rest' hrest' => ?_⟩
    have hhead' := honward (⟨.implies, offset⟩ :: (front' ++ rest')) rfl
    rw [List.append_assoc, List.cons_append]
    simp only [readClause, hhead', honward' rest' hrest']
    rfl
  | case5 head offset rest hhead body offset' after hbody =>
    obtain ⟨front, rfl, honward⟩ := oneAhead_readAtom.of_ok hhead
    obtain ⟨front', rfl, honward'⟩ := oneAhead_readBody.of_ok hbody
    refine ⟨front ++ ⟨.implies, offset⟩ :: (front' ++ [⟨.period, offset'⟩]),
      by simp [Reading.left], fun rest' _ => ?_⟩
    have hbody' := honward' (⟨.period, offset'⟩ :: rest') rfl
    have hhead' := honward (⟨.implies, offset⟩ :: (front' ++ ⟨.period, offset'⟩ :: rest')) rfl
    rw [List.append_assoc, List.cons_append, List.append_assoc, List.singleton_append]
    simp only [readClause, hhead', hbody']
    rfl
  | case6 head offset rest hhead body after hperiod hbody =>
    obtain ⟨front, rfl, honward⟩ := oneAhead_readAtom.of_ok hhead
    obtain ⟨front', rfl, honward'⟩ := oneAhead_readBody.of_ok hbody
    refine ⟨front ++ ⟨.implies, offset⟩ :: front', by simp [stuck, Reading.left],
      fun rest' hrest' => ?_⟩
    rw [List.append_assoc, List.cons_append]
    exact readClause_of_body_notNext (honward _ rfl) (honward' rest' hrest')
      (hrest'.notNext (notNext_of_forall_ne hperiod))
  | case7 head rest hperiod himplies hhead =>
    obtain ⟨front, rfl, honward⟩ := oneAhead_readAtom.of_ok hhead
    refine ⟨front, rfl, fun rest' hrest' => ?_⟩
    exact readClause_of_notNext (honward rest' hrest')
      (hrest'.notNext (notNext_of_forall_ne hperiod))
      (hrest'.notNext (notNext_of_forall_ne himplies))

/-! ## Whole texts -/

theorem readClauses_of_error {ls : List Lexeme} (hls : ls ≠ []) {e : Stop × List Lexeme}
    (hclause : readClause ls = .error e) : readClauses ls = .error e := by
  rw [readClauses, if_neg hls]
  split
  · next heq =>
    rw [hclause] at heq
    cases heq
    rfl
  · next heq =>
    rw [hclause] at heq
    cases heq

/-- Reading clauses is stuck at the same place, whatever stands behind it. -/
theorem readClauses_onward {ls rest : List Lexeme} {expected : List Token.Kind}
    (h : readClauses ls = .error (.stuck expected, rest)) :
    ∃ front, ls = front ++ rest ∧ ∀ rest', SameNext rest rest' →
      readClauses (front ++ rest') = .error (.stuck expected, rest') := by
  fun_induction readClauses ls with
  | case1 => cases h
  | case2 ls hls e hclause =>
    cases h
    obtain ⟨front, rfl, honward⟩ := oneAhead_readClause.of_error hclause
    exact ⟨front, rfl, fun rest' hrest' =>
      readClauses_of_error ((hrest'.append front).ne_nil hls) (honward rest' hrest')⟩
  | case3 => cases h
  | case4 ls hls c ls' hclause hlt e hrest ih =>
    cases h
    obtain ⟨front, rfl, honward⟩ := oneAhead_readClause.of_ok hclause
    obtain ⟨front', rfl, honward'⟩ := ih hrest
    refine ⟨front ++ front', (List.append_assoc _ _ _).symm, fun rest' hrest' => ?_⟩
    rw [List.append_assoc, readClauses_of_ok (honward _ (hrest'.append front')),
      honward' rest' hrest']
    rfl

theorem readSoleAtom_of_period {ls rest : List Lexeme} {a : Atom} {offset : Nat}
    (hatom : readAtom ls = .ok (a, ⟨.period, offset⟩ :: rest)) (hrest : rest ≠ []) :
    readSoleAtom ls = .error (.stuck [.endOfText], rest) := by
  cases rest with
  | nil => exact absurd rfl hrest
  | cons next rest => simp only [readSoleAtom, hatom]

theorem readSoleAtom_of_notNext {ls rest : List Lexeme} {a : Atom}
    (hatom : readAtom ls = .ok (a, rest)) (hrest : rest ≠ []) (hperiod : NotNext .period rest) :
    readSoleAtom ls = .error (.stuck [.endOfText], rest) := by
  cases rest with
  | nil => exact absurd rfl hrest
  | cons next rest =>
    obtain ⟨token, offset⟩ := next
    cases token with
    | period => exact absurd rfl hperiod
    | _ => simp only [readSoleAtom, hatom]

/-- Reading a sole atom is stuck at the same place, whatever stands behind it. -/
theorem readSoleAtom_onward {ls rest : List Lexeme} {expected : List Token.Kind}
    (h : readSoleAtom ls = .error (.stuck expected, rest)) :
    ∃ front, ls = front ++ rest ∧ ∀ rest', SameNext rest rest' →
      readSoleAtom (front ++ rest') = .error (.stuck expected, rest') := by
  unfold readSoleAtom at h
  split at h
  · next hatom =>
    cases h
    obtain ⟨front, rfl, honward⟩ := oneAhead_readAtom.of_error hatom
    refine ⟨front, rfl, fun rest' hrest' => ?_⟩
    simp only [readSoleAtom, honward rest' hrest']
  · cases h
  · cases h
  · next a offset rest' hrest hatom =>
    cases h
    obtain ⟨front, rfl, honward⟩ := oneAhead_readAtom.of_ok hatom
    refine ⟨front ++ [⟨.period, offset⟩], by simp, fun rest' hrest' => ?_⟩
    rw [List.append_assoc, List.singleton_append]
    exact readSoleAtom_of_period (honward _ rfl) (hrest'.ne_nil hrest)
  · next a rest' hrest _ hperiod hatom =>
    cases h
    obtain ⟨front, rfl, honward⟩ := oneAhead_readAtom.of_ok hatom
    exact ⟨front, rfl, fun rest' hrest' => readSoleAtom_of_notNext (honward rest' hrest')
      (hrest'.ne_nil hrest) (hrest'.notNext (notNext_of_forall_ne hperiod))⟩

end Grammar
end Datalog
