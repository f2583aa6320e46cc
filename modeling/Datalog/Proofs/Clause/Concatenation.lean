import Datalog.Proofs.Clause.Foresight
import Datalog.Proofs.Clause.Reading
import Datalog.Proofs.Token.Joint

/-!
# Clauses from joined texts

If one text has been read as clauses, it may be joined by a line feed to the front of any other: the
clauses of the joined text are those of the first one and then those of the second one, and if the
second one is refused then the joined text is refused for the same reason, at the place that is as
much further behind as the first text and the line feed are long (`Clause.listOfText_newline`).

* `IllFormed.behind`, `LoadError.behind`: the same report for a text that begins later.
* `Grammar.Reading.behind`, `Grammar.readClauses_behind`: the readers of the grammar do not look at
  the places of lexemes, and pass them on.

## Why the readers are at a boundary

The lexemes of the first text are those of whole clauses, and the last of them is a period.  Behind
it the readers have nothing in hand: no reader has looked beyond the period, and the vocabulary
apart, nothing is kept from one clause to the next.  So the lexemes of the second text are read as
if they were the only ones.
-/

namespace Datalog

/-- The same report of a violation, in a text that begins later; only open facts have a place. -/
def IllFormed.behind (distance : Nat) : IllFormed → IllFormed
  | ungroundedFact p x offset => ungroundedFact p x (offset + distance)
  | arityMismatch p expected found => arityMismatch p expected found
  | unboundHeadVariable p x => unboundHeadVariable p x

/-- The same report of a text that begins later. -/
def LoadError.behind (distance : Nat) : LoadError → LoadError
  | unreadable e => unreadable (e.behind distance)
  | unexpected e => unexpected { e with offset := e.offset + distance }
  | illFormed e => illFormed (e.behind distance)

namespace Grammar

/-- The same reason to stop in a text that begins later. -/
def Stop.behind (distance : Nat) : Stop → Stop
  | stuck expected => stuck expected
  | illFormed e => illFormed (e.behind distance)

/-- The same stop, in front of lexemes that are further behind. -/
def stopBehind (distance : Nat) (e : Stop × List Lexeme) : Stop × List Lexeme :=
  (e.1.behind distance, e.2.map (Lexeme.behind distance))

/-- The same reading of lexemes that are further behind. -/
def Reading.behind {α : Type} (distance : Nat) : Reading α → Reading α
  | .ok (a, rest) => .ok (a, rest.map (Lexeme.behind distance))
  | .error e => .error (stopBehind distance e)

/-! ## Readers do not look at places -/

section Behind

variable (distance : Nat) {ls rest : List Lexeme}

theorem tokensOf_behind (ls : List Lexeme) :
    tokensOf (ls.map (Lexeme.behind distance)) = tokensOf ls := by
  unfold tokensOf
  rw [List.map_map]
  rfl

theorem NotNext.behind {token : Token} (h : NotNext token ls) :
    NotNext token (ls.map (Lexeme.behind distance)) := by
  unfold NotNext
  rw [tokensOf_behind]
  exact h

theorem readTerms_behind (ls : List Lexeme) :
    readTerms (ls.map (Lexeme.behind distance)) = (readTerms ls).behind distance := by
  fun_induction readTerms ls with
  | case1 => rfl
  | case2 l rest hl => exact readTerms_of_not_term (l := l.behind distance) hl _
  | case3 l t hl offset rest ts after hrest ih =>
    rw [hrest] at ih
    have hcomma := readTerms_of_comma (l := l.behind distance) hl (offset + distance)
      (rest.map (Lexeme.behind distance))
    rw [ih] at hcomma
    exact hcomma
  | case4 l t hl offset rest e hrest ih =>
    rw [hrest] at ih
    have hcomma := readTerms_of_comma (l := l.behind distance) hl (offset + distance)
      (rest.map (Lexeme.behind distance))
    rw [ih] at hcomma
    exact hcomma
  | case5 l t hl offset rest =>
    have hl' : term? (l.behind distance).token = some t := hl
    show readTerms (l.behind distance :: ⟨.rparen, offset + distance⟩ :: _) = _
    rw [readTerms, hl']
    rfl
  | case6 l rest t hl hcomma hrparen =>
    exact readTerms_of_notNext (l := l.behind distance) hl
      ((notNext_of_forall_ne hcomma).behind distance)
      ((notNext_of_forall_ne hrparen).behind distance)

theorem readAtom_behind (ls : List Lexeme) :
    readAtom (ls.map (Lexeme.behind distance)) = (readAtom ls).behind distance := by
  fun_cases readAtom ls with
  | case1 p o₁ o₂ o₃ rest => rfl
  | case2 p o₁ o₂ rest hrparen ts after hterms =>
    have hread := readAtom_of_lparen p (o₁ + distance) (o₂ + distance)
      ((notNext_of_forall_ne hrparen).behind distance)
    rw [readTerms_behind, hterms] at hread
    exact hread
  | case3 p o₁ o₂ rest hrparen e hterms =>
    have hread := readAtom_of_lparen p (o₁ + distance) (o₂ + distance)
      ((notNext_of_forall_ne hrparen).behind distance)
    rw [readTerms_behind, hterms] at hread
    exact hread
  | case4 p o rest hempty hlparen =>
    exact readAtom_bare p (o + distance) ((notNext_of_forall_ne hlparen).behind distance)
  | case5 _ _ _ hbare =>
    exact readAtom_of_not_symbol fun p => (notNext_of_forall_ne (hbare p)).behind distance

theorem readBody_behind (ls : List Lexeme) :
    readBody (ls.map (Lexeme.behind distance)) = (readBody ls).behind distance := by
  fun_induction readBody ls with
  | case1 ls e hatom =>
    have hatom' := (readAtom_behind distance ls).trans (congrArg _ hatom)
    exact readBody_of_error hatom'
  | case2 ls a offset rest hatom hlt as after hbody ih =>
    have hatom' := (readAtom_behind distance ls).trans (congrArg _ hatom)
    rw [readBody_of_comma hatom', ih, hbody]
    rfl
  | case3 ls a offset rest hatom hlt e hbody ih =>
    have hatom' := (readAtom_behind distance ls).trans (congrArg _ hatom)
    rw [readBody_of_comma hatom', ih, hbody]
    rfl
  | case4 ls a rest hne hatom =>
    have hatom' := (readAtom_behind distance ls).trans (congrArg _ hatom)
    exact readBody_of_notNext hatom' ((notNext_of_forall_ne hne).behind distance)

theorem startOffset_behind (hls : ls ≠ []) :
    startOffset (ls.map (Lexeme.behind distance)) = startOffset ls + distance := by
  cases ls with
  | nil => exact absurd rfl hls
  | cons l ls => rfl

/-- The place of an open fact is that of its first lexeme, and moves with it. -/
theorem readClause_behind (ls : List Lexeme) :
    readClause (ls.map (Lexeme.behind distance)) = (readClause ls).behind distance := by
  have hatom := readAtom_behind distance ls
  have hhead' : ∀ {head token offset rest}, readAtom ls = .ok (head, ⟨token, offset⟩ :: rest) →
      readAtom (ls.map (Lexeme.behind distance)) =
        .ok (head, ⟨token, offset + distance⟩ :: rest.map (Lexeme.behind distance)) :=
    fun hhead => hatom.trans (congrArg _ hhead)
  fun_cases readClause ls with
  | case1 e hhead =>
    have herror := hatom.trans (congrArg _ hhead)
    rw [readClause, herror]
    rfl
  | case2 head offset rest hhead hvars =>
    simp only [readClause, hhead' hhead, hvars]
    rfl
  | case3 head offset rest hhead x xs hvars =>
    have hls : ls ≠ [] := by
      rintro rfl
      cases hhead
    simp only [readClause, hhead' hhead, hvars, startOffset_behind distance hls]
    rfl
  | case4 head offset rest hhead e hbody =>
    have hbody' := (readBody_behind distance rest).trans (congrArg _ hbody)
    simp only [readClause, hhead' hhead, hbody']
    rfl
  | case5 head offset rest hhead body offset' after hbody =>
    have hbody' : readBody (rest.map (Lexeme.behind distance)) =
        .ok (body, ⟨.period, offset' + distance⟩ :: after.map (Lexeme.behind distance)) :=
      (readBody_behind distance rest).trans (congrArg _ hbody)
    simp only [readClause, hhead' hhead, hbody']
    rfl
  | case6 head offset rest hhead body after hperiod hbody =>
    have hbody' := (readBody_behind distance rest).trans (congrArg _ hbody)
    exact readClause_of_body_notNext (hhead' hhead) hbody'
      ((notNext_of_forall_ne hperiod).behind distance)
  | case7 head rest hperiod himplies hhead =>
    exact readClause_of_notNext (hatom.trans (congrArg _ hhead))
      ((notNext_of_forall_ne hperiod).behind distance)
      ((notNext_of_forall_ne himplies).behind distance)

theorem readClauses_behind (ls : List Lexeme) :
    readClauses (ls.map (Lexeme.behind distance)) =
      (readClauses ls).mapError (stopBehind distance) := by
  fun_induction readClauses ls with
  | case1 => rw [List.map_nil, readClauses, if_pos rfl]; rfl
  | case2 ls hls e hclause =>
    have hls' : ls.map (Lexeme.behind distance) ≠ [] := fun h => hls (List.map_eq_nil_iff.mp h)
    exact readClauses_of_error hls' ((readClause_behind distance ls).trans (congrArg _ hclause))
  | case3 ls hls c rest hclause hlt cs hrest ih =>
    have hclause' := (readClause_behind distance ls).trans (congrArg _ hclause)
    rw [readClauses_of_ok hclause', ih, hrest]
    rfl
  | case4 ls hls c rest hclause hlt e hrest ih =>
    have hclause' := (readClause_behind distance ls).trans (congrArg _ hclause)
    rw [readClauses_of_ok hclause', ih, hrest]
    rfl

end Behind

end Grammar

/-! ## Reports -/

namespace Reader

section Verdict

variable {α β : Type} (result : Except (Grammar.Stop × List Lexeme) α) (ending : Token.Ending)

theorem verdict_behind (distance : Nat) :
    verdict (result.mapError (Grammar.stopBehind distance)) (ending.behind distance) =
      (verdict result ending).mapError (LoadError.behind distance) := by
  fun_cases verdict result ending <;> rfl

theorem verdict_map (f : α → β) :
    verdict (result.map f) ending = (verdict result ending).map f := by
  fun_cases verdict result ending <;> rfl

end Verdict

end Reader

/-! ## Joined texts -/

/-- What is made of a joined text, if the first one has been read. -/
theorem Clause.listOfText_join {a : String} {cs : List Clause} (ha : listOfText a = .ok cs)
    (b : String) : listOfText (a ++ "\n" ++ b) =
      ((listOfText b).mapError (LoadError.behind (a.utf8ByteSize + 1))).map (cs ++ ·) := by
  obtain ⟨lexemes, stop, hscan, hread⟩ := Reader.ofWhole_readAll_eq_ok_iff.mp ha
  obtain ⟨hprogram, hground⟩ := Grammar.readClauses_eq_ok_iff.mp hread
  have hchars : (a ++ "\n" ++ b).toList = a.toList ++ '\n' :: b.toList := by
    rw [String.toList_append, String.toList_append, List.append_assoc]
    rfl
  have hdistance : 0 + byteLength a.toList + 1 = 0 + (a.utf8ByteSize + 1) := by
    rw [byteLength_toList, Nat.add_assoc]
  show Reader.ofWhole (Reader.readAll Grammar.readClauses) _ =
    ((Reader.ofWhole (Reader.readAll Grammar.readClauses) b).mapError _).map _
  rw [Reader.ofWhole_readAll, Reader.ofWhole_readAll, hchars, Token.scan_newline hscan, hdistance,
    Token.scan_add, Grammar.readClauses_append hprogram hground rfl, Grammar.readClauses_behind,
    Reader.verdict_map, Reader.verdict_behind]

/-- **Reading goes through joints.**  Let a text be read as clauses; it may end within a comment,
and have any characters there.  If another text is read as clauses too, then the two texts, joined
by a line feed, are read as the clauses of the first one and then those of the second one.  And if
the other text is refused then so is the joined text, for the same reason, with the same names,
token or character, at a place that is behind by the length of the first text in bytes, and one. -/
theorem Clause.listOfText_newline {a : String} {cs : List Clause} (ha : listOfText a = .ok cs)
    (b : String) :
    (∀ ds, listOfText b = .ok ds → listOfText (a ++ "\n" ++ b) = .ok (cs ++ ds)) ∧
    ∀ e, listOfText b = .error e →
      listOfText (a ++ "\n" ++ b) = .error (e.behind (a.utf8ByteSize + 1)) := by
  have hjoin := Clause.listOfText_join ha b
  constructor
  · intro ds hb
    rw [hjoin, hb]
    rfl
  · intro e hb
    rw [hjoin, hb]
    rfl

/-- The first text ends within a comment, in which a letter takes two bytes. -/
theorem open_ferry_behind_comment :
    Clause.listOfText ("port(bari). % über" ++ "\n" ++ "ferry(X).") =
      .error (.illFormed (.ungroundedFact "ferry" "X" 20)) := by
  have hport : Clause.listOfText "port(bari). % über" = .ok [.fact ⟨"port", [.const "bari"]⟩] := by
    decide +kernel
  have hferry : Clause.listOfText "ferry(X)." =
      .error (.illFormed (.ungroundedFact "ferry" "X" 0)) := by decide +kernel
  exact (Clause.listOfText_newline hport "ferry(X).").2 _ hferry

end Datalog
