import Datalog.Token.Scan
import Mathlib.Data.List.TakeWhile

/-!
# How tokens are spelled

The names that a text can contain are those of the patterns `[a-z0-9][A-Za-z0-9_]*`, for symbols,
and `[A-Z_][A-Za-z0-9_]*`, for variables.  Every token found in a text is spelled so
(`Token.wellSpelled_of_mem_scan`), and every name spelled so is found again, provided that no
character of a name follows it.

* `Token.IsSymbolName`, `Token.IsVariableName`: the patterns.
* `Token.Spells`: a text consists of certain tokens, wherever it begins.
* `Token.Writes`: a text stands for certain tokens in front of any other text.

## Why what follows matters

The longest token is taken, so the text of a name alone does not stand for the name: in front of a
letter it is a part of a longer one.  Texts that end with a punctuation mark or a blank have no such
trouble, and `Writes` speaks of these only.  A name is therefore always taken together with the text
behind it (`Writes.symbol`).
-/

namespace Datalog
namespace Token

/-! ## Patterns -/

/-- The class `[A-Za-z0-9_]`. -/
def IsNameChar (c : Char) : Prop :=
  ('A' ≤ c ∧ c ≤ 'Z') ∨ ('a' ≤ c ∧ c ≤ 'z') ∨ ('0' ≤ c ∧ c ≤ '9') ∨ c = '_'

/-- The class `[a-z0-9]`. -/
def IsSymbolStart (c : Char) : Prop := ('a' ≤ c ∧ c ≤ 'z') ∨ ('0' ≤ c ∧ c ≤ '9')

/-- The class `[A-Z_]`. -/
def IsVariableStart (c : Char) : Prop := ('A' ≤ c ∧ c ≤ 'Z') ∨ c = '_'

instance : DecidablePred IsNameChar := fun _ => inferInstanceAs (Decidable (_ ∨ _))

instance : DecidablePred IsSymbolStart := fun _ => inferInstanceAs (Decidable (_ ∨ _))

instance : DecidablePred IsVariableStart := fun _ => inferInstanceAs (Decidable (_ ∨ _))

/-- A character of the given class, and then any number of characters of names. -/
def IsWord (start : Char → Prop) : List Char → Prop
  | [] => False
  | c :: cs => start c ∧ ∀ d ∈ cs, IsNameChar d

instance (start : Char → Prop) [DecidablePred start] : DecidablePred (IsWord start)
  | [] => inferInstanceAs (Decidable False)
  -- The instance is named, since all characters could be tried instead of those of the list.
  | _ :: cs => @instDecidableAnd _ _ _ (List.decidableBAll IsNameChar cs)

/-- The pattern `[a-z0-9][A-Za-z0-9_]*`. -/
def IsSymbolName (name : String) : Prop := IsWord IsSymbolStart name.toList

/-- The pattern `[A-Z_][A-Za-z0-9_]*`. -/
def IsVariableName (name : String) : Prop := IsWord IsVariableStart name.toList

instance : DecidablePred IsSymbolName := fun name =>
  inferInstanceAs (Decidable (IsWord IsSymbolStart name.toList))

instance : DecidablePred IsVariableName := fun name =>
  inferInstanceAs (Decidable (IsWord IsVariableStart name.toList))

/-- The name of a token, if it has one, fits the pattern of its class. -/
def WellSpelled : Token → Prop
  | symbol name => IsSymbolName name
  | var name => IsVariableName name
  | _ => True

theorem isWordChar_iff {c : Char} : isWordChar c = true ↔ IsNameChar c := by
  unfold isWordChar Char.isAlphanum Char.isAlpha Char.isUpper Char.isLower Char.isDigit
  simp only [IsNameChar, Char.le_def, Bool.or_eq_true, Bool.and_eq_true, decide_eq_true_eq,
    ge_iff_le, or_assoc]

theorem startsSymbol_iff {c : Char} : startsSymbol c = true ↔ IsSymbolStart c := by
  unfold startsSymbol Char.isLower Char.isDigit
  simp only [IsSymbolStart, Char.le_def, Bool.or_eq_true, Bool.and_eq_true, decide_eq_true_eq,
    ge_iff_le]

theorem startsVariable_iff {c : Char} : startsVariable c = true ↔ IsVariableStart c := by
  unfold startsVariable Char.isUpper
  simp only [IsVariableStart, Char.le_def, Bool.or_eq_true, decide_eq_true_eq, ge_iff_le]

/-! ## Every token found is well spelled -/

theorem isWord_cons_takeWhile {start : Char → Prop} {c : Char} (hc : start c) (cs : List Char) :
    IsWord start (c :: cs.takeWhile isWordChar) :=
  ⟨hc, fun _ hd => isWordChar_iff.mp (List.mem_takeWhile_imp hd)⟩

theorem wellSpelled_of_longestToken? {cs word rest : List Char} {token : Token}
    (h : longestToken? cs = some (token, word, rest)) : token.WellSpelled := by
  cases cs with
  | nil => cases h
  | cons c cs =>
    simp only [longestToken?] at h
    split at h
    · next hstart =>
      cases h
      show IsWord _ (String.ofList _).toList
      rw [String.toList_ofList]
      exact isWord_cons_takeWhile (startsSymbol_iff.mp hstart) cs
    · split at h
      · next hstart =>
        cases h
        show IsWord _ (String.ofList _).toList
        rw [String.toList_ofList]
        exact isWord_cons_takeWhile (startsVariable_iff.mp hstart) cs
      · unfold punctuation? at h
        split at h <;> cases h <;> exact trivial

theorem wellSpelled_of_scanStep {offset next : Nat} {cs rest : List Char} {l : Lexeme}
    (h : scanStep offset cs = .lexeme l rest next) : l.token.WellSpelled := by
  unfold scanStep at h
  obtain ⟨gap, text⟩ := splitGap cs
  simp only at h
  split at h
  · cases h
  · split at h
    · next htoken =>
      cases h
      exact wellSpelled_of_longestToken? htoken
    · cases h

theorem scan_of_lexeme {offset next : Nat} {cs rest : List Char} {l : Lexeme}
    (h : scanStep offset cs = .lexeme l rest next) :
    scan offset cs = (l :: (scan next rest).1, (scan next rest).2) := by
  rw [scan]
  split
  · next heq =>
    rw [h] at heq
    cases heq
  · next heq =>
    rw [h] at heq
    cases heq
    rfl

theorem scan_of_ended {offset : Nat} {cs : List Char} {ending : Ending}
    (h : scanStep offset cs = .ended ending) : scan offset cs = ([], ending) := by
  rw [scan]
  split
  · next heq =>
    rw [h] at heq
    cases heq
    rfl
  · next heq =>
    rw [h] at heq
    cases heq

/-- **Every token found in a text is well spelled.** -/
theorem wellSpelled_of_mem_scan {offset : Nat} {cs : List Char} {l : Lexeme}
    (h : l ∈ (scan offset cs).1) : l.token.WellSpelled := by
  fun_induction scan offset cs with
  | case1 offset cs ending hstep => exact absurd h List.not_mem_nil
  | case2 offset cs l' rest next hstep hlt ls ending hscan ih =>
    rw [hscan] at ih
    rcases List.mem_cons.mp h with rfl | h
    · exact wellSpelled_of_scanStep hstep
    · exact ih h

/-! ## Texts that consist of certain tokens -/

/-- A text consists of certain tokens, wherever it begins. -/
def Spells (cs : List Char) (tokens : List Token) : Prop :=
  ∀ offset, ∃ lexemes stop, scan offset cs = (lexemes, .finished stop) ∧
    lexemes.map Lexeme.token = tokens

theorem spells_nil : Spells [] [] := fun offset => ⟨[], offset, scan_of_ended rfl, rfl⟩

/-- A blank in front of a text moves the text, and changes nothing else. -/
theorem scan_cons_of_isBlank {c : Char} (hc : isBlank c = true) (offset : Nat) (cs : List Char) :
    scan offset (c :: cs) = scan (offset + c.utf8Size) cs := by
  have hpercent : c ≠ '%' := by
    rintro rfl
    cases hc
  have hsplit : splitGap (c :: cs) = (c :: (splitGap cs).1, (splitGap cs).2) := by
    unfold splitGap
    rw [splitGapFrom, if_pos (by rw [hc]; rfl), decide_eq_false hpercent]
  have hlength : byteLength (c :: (splitGap cs).1) = c.utf8Size + byteLength (splitGap cs).1 := rfl
  have hstep : scanStep offset (c :: cs) = scanStep (offset + c.utf8Size) cs := by
    unfold scanStep
    simp only [hsplit, hlength, Nat.add_assoc]
  cases h : scanStep (offset + c.utf8Size) cs with
  | ended ending => rw [scan_of_ended h, scan_of_ended (hstep.trans h)]
  | lexeme l rest next => rw [scan_of_lexeme h, scan_of_lexeme (hstep.trans h)]

theorem spells_cons_of_isBlank {c : Char} (hc : isBlank c = true) {cs : List Char}
    {tokens : List Token} (h : Spells cs tokens) : Spells (c :: cs) tokens := by
  intro offset
  rw [scan_cons_of_isBlank hc]
  exact h _

/-- There is no gap in front of a token. -/
theorem splitGap_of_longestToken? {cs word rest : List Char} {token : Token}
    (h : longestToken? cs = some (token, word, rest)) : splitGap cs = ([], cs) := by
  cases cs with
  | nil => cases h
  | cons c cs =>
    unfold splitGap
    rw [splitGapFrom, if_neg]
    intro hgap
    simp only [isBlank, Bool.or_eq_true, decide_eq_true_eq] at hgap
    rcases hgap with (((rfl | rfl) | rfl) | rfl) | rfl <;> cases h

theorem spells_of_longestToken? {cs word rest : List Char} {token : Token}
    (h : longestToken? cs = some (token, word, rest)) {tokens : List Token}
    (hrest : Spells rest tokens) : Spells cs (token :: tokens) := by
  intro offset
  have hstep : ∃ next, scanStep offset cs = .lexeme ⟨token, offset⟩ rest next := by
    cases cs with
    | nil => cases h
    | cons c cs =>
      unfold scanStep
      rw [splitGap_of_longestToken? h]
      simp only [h]
      exact ⟨_, rfl⟩
  obtain ⟨next, hstep⟩ := hstep
  obtain ⟨lexemes, stop, hscan, rfl⟩ := hrest next
  refine ⟨⟨token, offset⟩ :: lexemes, stop, ?_, rfl⟩
  rw [scan_of_lexeme hstep, hscan]

/-! ## Names in front of other texts -/

/-- No character of a name comes first. -/
def NotWord (cs : List Char) : Prop := ∀ c ∈ cs.head?, ¬ IsNameChar c

theorem takeWhile_append_of_notWord {word rest : List Char} (hword : ∀ c ∈ word, IsNameChar c)
    (hrest : NotWord rest) : (word ++ rest).takeWhile isWordChar = word ∧
      (word ++ rest).dropWhile isWordChar = rest := by
  have hinside : ∀ c ∈ word, isWordChar c = true := fun c hc => isWordChar_iff.mpr (hword c hc)
  rw [List.takeWhile_append_of_pos hinside, List.dropWhile_append_of_pos hinside]
  cases rest with
  | nil => simp
  | cons c rest =>
    have hstop : isWordChar c = false := by
      rw [← Bool.not_eq_true, isWordChar_iff]
      exact hrest c rfl
    simp [hstop]

theorem not_isSymbolStart_of_isVariableStart {c : Char} (h : IsVariableStart c) :
    ¬ IsSymbolStart c := by
  rcases h with ⟨hA, hZ⟩ | rfl
  · rintro (⟨ha, -⟩ | ⟨-, h9⟩)
    · exact absurd (Char.le_trans ha hZ) (by decide)
    · exact absurd (Char.le_trans hA h9) (by decide)
  · decide

theorem IsWord.exists_cons {start : Char → Prop} {cs : List Char} (h : IsWord start cs) :
    ∃ c word, cs = c :: word ∧ start c ∧ ∀ d ∈ word, IsNameChar d := by
  cases cs with
  | nil => exact h.elim
  | cons c word => exact ⟨c, word, rfl, h⟩

theorem longestToken?_symbol {name : String} (hname : IsSymbolName name) {rest : List Char}
    (hrest : NotWord rest) :
    longestToken? (name.toList ++ rest) = some (.symbol name, name.toList, rest) := by
  obtain ⟨c, word, hchars, hstart, hword⟩ := hname.exists_cons
  obtain ⟨htake, hdrop⟩ := takeWhile_append_of_notWord hword hrest
  rw [hchars, List.cons_append, longestToken?, if_pos (startsSymbol_iff.mpr hstart), htake, hdrop,
    ← hchars, String.ofList_toList]

theorem longestToken?_var {name : String} (hname : IsVariableName name) {rest : List Char}
    (hrest : NotWord rest) :
    longestToken? (name.toList ++ rest) = some (.var name, name.toList, rest) := by
  obtain ⟨c, word, hchars, hstart, hword⟩ := hname.exists_cons
  obtain ⟨htake, hdrop⟩ := takeWhile_append_of_notWord hword hrest
  have hnot : ¬ startsSymbol c = true :=
    fun h => not_isSymbolStart_of_isVariableStart hstart (startsSymbol_iff.mp h)
  rw [hchars, List.cons_append, longestToken?, if_neg hnot, if_pos (startsVariable_iff.mpr hstart),
    htake, hdrop, ← hchars, String.ofList_toList]

/-! ## Texts that stand for certain tokens -/

/-- In front of any other text, a text stands for certain tokens. -/
def Writes (text : String) (tokens : List Token) : Prop :=
  ∀ rest more, Spells rest more → Spells (text.toList ++ rest) (tokens ++ more)

theorem Writes.append {s s' : String} {tokens tokens' : List Token} (h : Writes s tokens)
    (h' : Writes s' tokens') : Writes (s ++ s') (tokens ++ tokens') := by
  intro rest more hrest
  rw [String.toList_append, List.append_assoc, List.append_assoc]
  exact h _ _ (h' rest more hrest)

theorem Writes.spells {s : String} {tokens : List Token} (h : Writes s tokens) :
    Spells s.toList tokens := by
  have hspells := h [] [] spells_nil
  rwa [List.append_nil, List.append_nil] at hspells

/-- The text is that of a token, whatever follows. -/
theorem writes_of_longestToken? {s : String} {token : Token}
    (h : ∀ rest, longestToken? (s.toList ++ rest) = some (token, s.toList, rest)) :
    Writes s [token] :=
  fun rest _ hrest => spells_of_longestToken? (h rest) hrest

theorem writes_empty : Writes "" [] := fun _ _ hrest => hrest

theorem writes_lparen : Writes "(" [.lparen] := writes_of_longestToken? fun _ => rfl

theorem writes_rparen : Writes ")" [.rparen] := writes_of_longestToken? fun _ => rfl

theorem writes_period : Writes "." [.period] := writes_of_longestToken? fun _ => rfl

theorem writes_newline : Writes "\n" [] := fun _ _ hrest => spells_cons_of_isBlank rfl hrest

theorem writes_comma : Writes ", " [.comma] := by
  intro rest more hrest
  have htoken : longestToken? (',' :: ' ' :: rest) = some (.comma, [','], ' ' :: rest) := rfl
  exact spells_of_longestToken? htoken (spells_cons_of_isBlank rfl hrest)

theorem writes_implies : Writes " :- " [.implies] := by
  intro rest more hrest
  have htoken : longestToken? (':' :: '-' :: ' ' :: rest) =
      some (.implies, [':', '-'], ' ' :: rest) := rfl
  exact spells_cons_of_isBlank rfl
    (spells_of_longestToken? htoken (spells_cons_of_isBlank rfl hrest))

/-- The text begins with a character that no name has. -/
def EndsName (s : String) : Prop := ∃ c, s.toList.head? = some c ∧ ¬ IsNameChar c

theorem endsName_comma : EndsName ", " := ⟨',', rfl, by decide⟩

theorem endsName_lparen : EndsName "(" := ⟨'(', rfl, by decide⟩

theorem endsName_rparen : EndsName ")" := ⟨')', rfl, by decide⟩

theorem EndsName.append {s : String} (h : EndsName s) (s' : String) : EndsName (s ++ s') := by
  obtain ⟨c, hhead, hc⟩ := h
  refine ⟨c, ?_, hc⟩
  rw [String.toList_append, List.head?_append, hhead]
  rfl

theorem EndsName.notWord {s : String} (h : EndsName s) (rest : List Char) :
    NotWord (s.toList ++ rest) := by
  obtain ⟨c, hhead, hc⟩ := h
  rw [NotWord, List.head?_append, hhead]
  rintro c' hc'
  cases hc'
  exact hc

/-- A text behind a name keeps what it stands for, if it ends the name. -/
theorem Writes.name {name s : String} {token : Token} {tokens : List Token}
    (hname : ∀ rest, NotWord rest →
      longestToken? (name.toList ++ rest) = some (token, name.toList, rest))
    (hs : EndsName s) (h : Writes s tokens) : Writes (name ++ s) (token :: tokens) := by
  intro rest more hrest
  rw [String.toList_append, List.append_assoc]
  exact spells_of_longestToken? (hname _ (hs.notWord rest)) (h rest more hrest)

theorem Writes.symbol {name s : String} {tokens : List Token} (hname : IsSymbolName name)
    (hs : EndsName s) (h : Writes s tokens) : Writes (name ++ s) (.symbol name :: tokens) :=
  h.name (fun _ => longestToken?_symbol hname) hs

theorem Writes.var {name s : String} {tokens : List Token} (hname : IsVariableName name)
    (hs : EndsName s) (h : Writes s tokens) : Writes (name ++ s) (.var name :: tokens) :=
  h.name (fun _ => longestToken?_var hname) hs

end Token
end Datalog
