import Datalog.Proofs.Token.Spelling

/-!
# Reading by longest matches

A text is read by skipping the longest gap and taking the longest token, again and again.  This
module says what that means without saying how it is done: a *gap* is any sequence of blanks and
comments, the texts of the tokens are given by patterns, and the front that is skipped or taken is
longer than every other front of its kind (`Token.Munches`).

* `Token.IsLongest`: the longest front of a text with a property.
* `Token.IsGap`, `Token.WrittenAs`: what may be skipped, and how each token is written.
* `Token.Munches`: the reading of a text, piece by piece, up to the place where it stops.
* `Token.Munches.unique`, `Token.scan_munches`: a text has one reading, and it is what `scan` finds.

## Why the longest front is taken at once

The reader decides with every character whether it goes on, and never looks back.  For names that is
enough since every front of a name is a name.  For gaps it is not quite: inside a comment, what
follows may be anything up to the line feed, so the reader remembers whether it is inside one.  With
that flag a front of a gap can be extended exactly by what the reader takes next, and the longest
front is the one where it stops (`Token.covers_splitGapFrom`).

## Why a text may be cut where the reading stops

Longest fronts stay longest if the text ends earlier, as long as it ends behind them.  So the part
of a text in front of an unreadable place has the same reading, and it ends in good order
(`Token.Munches.cut`).
-/

namespace Datalog

@[simp] theorem byteLength_nil : byteLength [] = 0 := rfl

@[simp] theorem byteLength_append (cs ds : List Char) :
    byteLength (cs ++ ds) = byteLength cs + byteLength ds := by
  unfold byteLength
  rw [List.map_append, total_append]

namespace Token

/-- The longest front of a text that has a property. -/
structure IsLongest (P : List Char → Prop) (front text : List Char) : Prop where
  isFront : front <+: text
  holds : P front
  le : ∀ other, other <+: text → P other → other.length ≤ front.length

namespace IsLongest

variable {P : List Char → Prop} {front front' text text' : List Char}

theorem unique (h : IsLongest P front text) (h' : IsLongest P front' text) : front = front' := by
  have hlength : front.length = front'.length :=
    Nat.le_antisymm (h'.le front h.isFront h.holds) (h.le front' h'.isFront h'.holds)
  exact (List.prefix_of_prefix_length_le h.isFront h'.isFront hlength.le).eq_of_length hlength

/-- A text that ends earlier, but not inside the front, has the same longest front. -/
theorem of_front (h : IsLongest P front text) (hfront : front <+: text') (htext : text' <+: text) :
    IsLongest P front text' :=
  ⟨hfront, h.holds, fun other hother => h.le other (hother.trans htext)⟩

end IsLongest

/-! ## Gaps -/

/-- Any number of blanks and comments.  A comment is a percent sign and any characters behind it
but the line feed. -/
inductive IsGap : List Char → Prop where
  | nil : IsGap []
  | blank {c : Char} {cs : List Char} :
      c = ' ' ∨ c = '\t' ∨ c = '\r' ∨ c = '\n' → IsGap cs → IsGap (c :: cs)
  | comment {body cs : List Char} : '\n' ∉ body → IsGap cs → IsGap ('%' :: (body ++ cs))

/-- What a gap may go on with inside a comment: the rest of the comment, and then a gap. -/
def EndsComment (cs : List Char) : Prop :=
  ∃ body rest, '\n' ∉ body ∧ IsGap rest ∧ cs = body ++ rest

theorem isBlank_iff {c : Char} :
    isBlank c = true ↔ c = ' ' ∨ c = '\t' ∨ c = '\r' ∨ c = '\n' := by
  simp [isBlank, or_assoc]

theorem isGap_cons_iff {c : Char} {cs : List Char} :
    IsGap (c :: cs) ↔ isBlank c = true ∧ IsGap cs ∨ c = '%' ∧ EndsComment cs := by
  rw [isBlank_iff]
  constructor
  · intro h
    cases h with
    | blank hc hcs => exact Or.inl ⟨hc, hcs⟩
    | comment hbody hcs => exact Or.inr ⟨rfl, _, _, hbody, hcs, rfl⟩
  · rintro (⟨hc, hcs⟩ | ⟨rfl, body, rest, hbody, hrest, rfl⟩)
    · exact .blank hc hcs
    · exact .comment hbody hrest

theorem endsComment_cons_iff {c : Char} {cs : List Char} :
    EndsComment (c :: cs) ↔ c ≠ '\n' ∧ EndsComment cs ∨ c = '\n' ∧ IsGap cs := by
  constructor
  · rintro ⟨body, rest, hbody, hrest, heq⟩
    cases body with
    | cons d body =>
      obtain ⟨rfl, rfl⟩ := List.cons.inj heq
      rw [List.mem_cons, not_or] at hbody
      exact Or.inl ⟨Ne.symm hbody.1, body, rest, hbody.2, hrest, rfl⟩
    | nil =>
      obtain rfl : c :: cs = rest := heq
      rcases isGap_cons_iff.mp hrest with ⟨-, hcs⟩ | ⟨rfl, hcs⟩
      · by_cases hc : c = '\n'
        · exact Or.inr ⟨hc, hcs⟩
        · exact Or.inl ⟨hc, [], cs, List.not_mem_nil, hcs, rfl⟩
      · exact Or.inl ⟨by decide, hcs⟩
  · rintro (⟨hc, body, rest, hbody, hrest, rfl⟩ | ⟨rfl, hcs⟩)
    · refine ⟨c :: body, rest, ?_, hrest, rfl⟩
      rw [List.mem_cons, not_or]
      exact ⟨Ne.symm hc, hbody⟩
    · exact ⟨[], '\n' :: cs, List.not_mem_nil, .blank (by decide) hcs, rfl⟩

/-- What may be skipped, outside of a comment and inside of one. -/
def Covers : Bool → List Char → Prop
  | false => IsGap
  | true => EndsComment

/-- **The reader skips what may be skipped, and no front that may be skipped is longer.** -/
theorem covers_splitGapFrom (inside : Bool) (cs : List Char) :
    Covers inside (splitGapFrom inside cs).1 ∧
      ∀ other, other <+: cs → Covers inside other →
        other.length ≤ (splitGapFrom inside cs).1.length := by
  have hempty : ∀ inside, Covers inside [] := by
    intro inside
    cases inside with
    | false => exact .nil
    | true => exact ⟨[], [], List.not_mem_nil, .nil, rfl⟩
  induction cs generalizing inside with
  | nil =>
    refine ⟨by cases inside <;> exact hempty _, fun other hother _ => ?_⟩
    rw [List.prefix_nil.mp hother]
    exact Nat.zero_le _
  | cons c cs ih =>
    -- A front with the first character of the text is covered as the reader decides.
    have hfirst : ∀ next gap, splitGapFrom inside (c :: cs) = (c :: (splitGapFrom next cs).1, gap) →
        (∀ o, Covers inside (c :: o) ↔ Covers next o) →
        Covers inside (splitGapFrom inside (c :: cs)).1 ∧
          ∀ other, other <+: c :: cs → Covers inside other →
            other.length ≤ (splitGapFrom inside (c :: cs)).1.length := by
      intro next gap heq hcovers
      obtain ⟨hcovered, hle⟩ := ih next
      rw [heq]
      refine ⟨(hcovers _).mpr hcovered, fun other hother hother' => ?_⟩
      cases other with
      | nil => exact Nat.zero_le _
      | cons d o =>
        obtain ⟨rfl, ho⟩ := List.cons_prefix_cons.mp hother
        exact Nat.succ_le_succ (hle o ho ((hcovers o).mp hother'))
    cases inside with
    | true =>
      refine hfirst (c != '\n') (splitGapFrom (c != '\n') cs).2 rfl fun o => ?_
      show EndsComment (c :: o) ↔ _
      rw [endsComment_cons_iff]
      by_cases hc : c = '\n'
      · subst hc
        simp [Covers]
      · have hne : (c != '\n') = true := bne_iff_ne.mpr hc
        rw [hne]
        simp [hc, Covers]
    | false =>
      by_cases hgap : (isBlank c || c = '%') = true
      · refine hfirst (c = '%') (splitGapFrom (c = '%') cs).2 ?_ fun o => ?_
        · rw [splitGapFrom, if_pos hgap]
        · show IsGap (c :: o) ↔ _
          rw [isGap_cons_iff]
          by_cases hc : c = '%'
          · subst hc
            simp [isBlank, Covers]
          · have hblank : isBlank c = true := by simpa [hc] using hgap
            simp [hc, hblank, Covers]
      · rw [splitGapFrom, if_neg hgap]
        refine ⟨.nil, fun other hother hcovered => ?_⟩
        cases other with
        | nil => exact Nat.le_refl _
        | cons d o =>
          obtain ⟨rfl, -⟩ := List.cons_prefix_cons.mp hother
          refine absurd ?_ hgap
          rw [Bool.or_eq_true, decide_eq_true_iff]
          exact (isGap_cons_iff.mp hcovered).imp And.left And.left

theorem isLongest_splitGap (cs : List Char) : IsLongest IsGap (splitGap cs).1 cs := by
  obtain ⟨hgap, hle⟩ := covers_splitGapFrom false cs
  exact ⟨⟨_, splitGap_append cs⟩, hgap, hle⟩

/-! ## Tokens -/

/-- The texts of the tokens; the token for the end of a text has none. -/
def WrittenAs : Token → List Char → Prop
  | symbol name, cs => IsSymbolName name ∧ name.toList = cs
  | var name, cs => IsVariableName name ∧ name.toList = cs
  | lparen, cs => ['('] = cs
  | rparen, cs => [')'] = cs
  | comma, cs => [','] = cs
  | period, cs => ['.'] = cs
  | implies, cs => [':', '-'] = cs
  | endOfText, _ => False

/-- The text of some token. -/
def IsToken (cs : List Char) : Prop := ∃ token : Token, token.WrittenAs cs

theorem writtenAs_of_longestToken? {cs word rest : List Char} {token : Token}
    (h : longestToken? cs = some (token, word, rest)) : token.WrittenAs word := by
  have hspelled := wellSpelled_of_longestToken? h
  cases cs with
  | nil => cases h
  | cons c cs =>
    simp only [longestToken?] at h
    split at h
    · cases h
      exact ⟨hspelled, String.toList_ofList⟩
    · split at h
      · cases h
        exact ⟨hspelled, String.toList_ofList⟩
      · unfold punctuation? at h
        split at h <;> cases h <;> rfl

/-- Where a token starts, a token is found, and it is at least as long. -/
theorem exists_longestToken? {token : Token} {word cs : List Char} (hword : token.WrittenAs word)
    (hfront : word <+: cs) :
    ∃ token' word' rest, longestToken? cs = some (token', word', rest) ∧
      word.length ≤ word'.length := by
  obtain ⟨rest, rfl⟩ := hfront
  -- The characters of a name are taken, and perhaps more.
  have hname : ∀ {start : Char → Prop} {name : String}, IsWord start name.toList →
      name.toList = word → ∃ c w, word = c :: w ∧ start c ∧
        word.length ≤ (c :: (w ++ rest).takeWhile isWordChar).length := by
    intro start name hspelled heq
    obtain ⟨c, w, hchars, hstart, hw⟩ := hspelled.exists_cons
    refine ⟨c, w, heq.symm.trans hchars, hstart, ?_⟩
    rw [← heq, hchars, List.takeWhile_append_of_pos fun d hd => isWordChar_iff.mpr (hw d hd)]
    simp
  cases token with
  | symbol name =>
    obtain ⟨c, w, rfl, hstart, hle⟩ := hname hword.1 hword.2
    refine ⟨symbol (String.ofList (c :: (w ++ rest).takeWhile isWordChar)), _,
      (w ++ rest).dropWhile isWordChar, ?_, hle⟩
    rw [List.cons_append, longestToken?, if_pos (startsSymbol_iff.mpr hstart)]
  | var name =>
    obtain ⟨c, w, rfl, hstart, hle⟩ := hname hword.1 hword.2
    have hnot : ¬ startsSymbol c = true :=
      fun h => not_isSymbolStart_of_isVariableStart hstart (startsSymbol_iff.mp h)
    refine ⟨var (String.ofList (c :: (w ++ rest).takeWhile isWordChar)), _,
      (w ++ rest).dropWhile isWordChar, ?_, hle⟩
    rw [List.cons_append, longestToken?, if_neg hnot, if_pos (startsVariable_iff.mpr hstart)]
  | endOfText => exact hword.elim
  | lparen | rparen | comma | period | implies =>
    obtain rfl := hword
    exact ⟨_, _, _, rfl, le_rfl⟩

theorem isLongest_of_longestToken? {cs word rest : List Char} {token : Token}
    (h : longestToken? cs = some (token, word, rest)) : IsLongest IsToken word cs where
  isFront := ⟨rest, (longestToken?_eq_some h).2⟩
  holds := ⟨token, writtenAs_of_longestToken? h⟩
  le := by
    rintro other hother ⟨token', hwritten⟩
    obtain ⟨_, _, _, heq, hle⟩ := exists_longestToken? hwritten hother
    rw [h] at heq
    cases heq
    exact hle

theorem not_isToken_of_longestToken? {cs word : List Char} (h : longestToken? cs = none)
    (hword : word <+: cs) : ¬ IsToken word := by
  rintro ⟨token, hwritten⟩
  obtain ⟨_, _, _, heq, -⟩ := exists_longestToken? hwritten hword
  rw [h] at heq
  cases heq

/-- A text is the text of one token at most. -/
theorem WrittenAs.unique {token token' : Token} {cs : List Char} (h : token.WrittenAs cs)
    (h' : token'.WrittenAs cs) : token = token' := by
  have hfound : ∀ {t : Token}, t.WrittenAs cs → (longestToken? cs).map Prod.fst = some t := by
    intro t ht
    cases t with
    | symbol name =>
      obtain ⟨hname, rfl⟩ := ht
      have hend : NotWord [] := by rintro c ⟨⟩
      have hfound := longestToken?_symbol hname hend
      rw [List.append_nil] at hfound
      rw [hfound]
      rfl
    | var name =>
      obtain ⟨hname, rfl⟩ := ht
      have hend : NotWord [] := by rintro c ⟨⟩
      have hfound := longestToken?_var hname hend
      rw [List.append_nil] at hfound
      rw [hfound]
      rfl
    | endOfText => exact ht.elim
    | lparen | rparen | comma | period | implies =>
      obtain rfl := ht
      rfl
  exact Option.some.inj ((hfound h).symm.trans (hfound h'))

theorem WrittenAs.ne_nil {token : Token} {cs : List Char} (h : token.WrittenAs cs) : cs ≠ [] := by
  rintro rfl
  obtain ⟨_, _, _, hfound, -⟩ := exists_longestToken? h (List.prefix_refl [])
  cases hfound

/-! ## The reading of a text -/

/-- A token, the characters it is written with, and the gap in front of it. -/
structure Piece where
  /-- The gap in front of the token. -/
  gap : List Char
  /-- The token. -/
  token : Token
  /-- The characters of the token. -/
  word : List Char

/-- All characters of a piece. -/
def Piece.chars (p : Piece) : List Char := p.gap ++ p.word

/-- The reading of a text: its pieces, the gap behind them, and what is left unread because no token
starts there. -/
inductive Munches : List Char → List Piece → List Char → List Char → Prop where
  /-- Behind the longest gap, no token starts. -/
  | stop {text gap unread : List Char} : text = gap ++ unread → IsLongest IsGap gap text →
      (∀ word, word <+: unread → ¬ IsToken word) → Munches text [] gap unread
  /-- Behind the longest gap, the longest token is taken, and the rest is read. -/
  | piece {text rest gap unread : List Char} {p : Piece} {ps : List Piece} :
      text = p.chars ++ rest → IsLongest IsGap p.gap text → p.token.WrittenAs p.word →
      IsLongest IsToken p.word (p.word ++ rest) → Munches rest ps gap unread →
      Munches text (p :: ps) gap unread

namespace Munches

variable {text gap gap' unread unread' : List Char} {ps ps' : List Piece}

/-- Nothing is lost. -/
theorem text_eq (h : Munches text ps gap unread) :
    text = ps.flatMap Piece.chars ++ (gap ++ unread) := by
  induction h with
  | stop htext _ _ => exact htext
  | piece htext _ _ _ _ ih => rw [htext, ih, List.flatMap_cons, List.append_assoc]

/-- **A text has one reading.** -/
theorem unique (h : Munches text ps gap unread) (h' : Munches text ps' gap' unread') :
    ps = ps' ∧ gap = gap' ∧ unread = unread' := by
  induction h generalizing ps' with
  | @stop text gap unread htext hgap hnone =>
    cases h' with
    | stop htext' hgap' _ =>
      obtain rfl := hgap.unique hgap'
      exact ⟨rfl, rfl, List.append_cancel_left (htext.symm.trans htext')⟩
    | @piece _ rest _ _ p _ htext' hgap' hwritten _ _ =>
      obtain rfl := hgap.unique hgap'
      rw [htext, Piece.chars, List.append_assoc] at htext'
      obtain rfl := List.append_cancel_left htext'
      exact absurd ⟨p.token, hwritten⟩ (hnone p.word (List.prefix_append _ _))
  | @piece text rest gap unread p ps htext hgap hwritten hword _ ih =>
    cases h' with
    | stop htext' hgap' hnone =>
      obtain rfl := hgap.unique hgap'
      rw [htext, Piece.chars, List.append_assoc] at htext'
      obtain rfl := List.append_cancel_left htext'
      exact absurd ⟨p.token, hwritten⟩ (hnone p.word (List.prefix_append _ _))
    | @piece _ rest' _ _ p' ps' htext' hgap' hwritten' hword' hrest' =>
      obtain ⟨gap₁, token, word⟩ := p
      obtain ⟨gap₂, token', word'⟩ := p'
      obtain rfl : gap₁ = gap₂ := hgap.unique hgap'
      rw [htext, Piece.chars, Piece.chars, List.append_assoc, List.append_assoc] at htext'
      have hbehind : word ++ rest = word' ++ rest' := List.append_cancel_left htext'
      have hword' : IsLongest IsToken word' (word' ++ rest') := hword'
      rw [← hbehind] at hword'
      obtain rfl : word = word' := hword.unique hword'
      obtain rfl := List.append_cancel_left hbehind
      obtain rfl : token = token' := hwritten.unique hwritten'
      obtain ⟨rfl, rfl, rfl⟩ := ih hrest'
      exact ⟨rfl, rfl, rfl⟩

/-- **What is in front of the unread part has the same reading.** -/
theorem cut (h : Munches text ps gap unread) :
    Munches (ps.flatMap Piece.chars ++ gap) ps gap [] := by
  induction h with
  | @stop text gap unread htext hgap _ =>
    refine .stop (List.append_nil gap).symm ?_ fun word hword htoken => ?_
    · exact hgap.of_front (List.prefix_refl gap) (htext ▸ List.prefix_append gap unread)
    · obtain ⟨token, hwritten⟩ := htoken
      exact hwritten.ne_nil (List.prefix_nil.mp hword)
  | @piece text rest gap unread p ps htext hgap hwritten hword hrest ih =>
    have hfront : ps.flatMap Piece.chars ++ gap <+: rest := by
      rw [hrest.text_eq, ← List.append_assoc]
      exact List.prefix_append _ _
    rw [List.flatMap_cons, List.append_assoc]
    refine .piece rfl (hgap.of_front ?_ ?_) hwritten (hword.of_front ?_ ?_) ih
    · rw [Piece.chars, List.append_assoc]
      exact List.prefix_append _ _
    · rw [htext]
      exact (List.prefix_append_right_inj _).mpr hfront
    · exact List.prefix_append _ _
    · exact (List.prefix_append_right_inj _).mpr hfront

end Munches

/-! ## What a scan finds -/

/-- The tokens of pieces that begin at the given byte offset. -/
def lexemesFrom : Nat → List Piece → List Lexeme
  | _, [] => []
  | offset, p :: ps =>
    ⟨p.token, offset + byteLength p.gap⟩ :: lexemesFrom (offset + byteLength p.chars) ps

/-- How a reading ends that stops at the given byte offset. -/
def endingAt (offset : Nat) : List Char → Ending
  | [] => .finished offset
  | c :: _ => .unreadable ⟨offset, c⟩

section Step

variable {offset : Nat} {cs : List Char}

/-- A step takes the gap and then a token, or finds the end or an unreadable place. -/
theorem scanStep_eq (offset : Nat) (cs : List Char) :
    scanStep offset cs =
      match longestToken? (splitGap cs).2 with
      | some (token, word, rest) =>
        .lexeme ⟨token, offset + byteLength (splitGap cs).1⟩ rest
          (offset + byteLength (splitGap cs).1 + byteLength word)
      | none => .ended (endingAt (offset + byteLength (splitGap cs).1) (splitGap cs).2) := by
  unfold scanStep
  obtain ⟨gap, text⟩ := splitGap cs
  cases text with
  | nil => rfl
  | cons c text =>
    simp only
    cases longestToken? (c :: text) <;> rfl

theorem scanStep_eq_lexeme_iff {l : Lexeme} {rest : List Char} {next : Nat} :
    scanStep offset cs = .lexeme l rest next ↔
      ∃ word, longestToken? (splitGap cs).2 = some (l.token, word, rest) ∧
        l.offset = offset + byteLength (splitGap cs).1 ∧ next = l.offset + byteLength word := by
  rw [scanStep_eq]
  cases longestToken? (splitGap cs).2 with
  | none => simp
  | some found =>
    constructor
    · intro h
      cases h
      exact ⟨_, rfl, rfl, rfl⟩
    · obtain ⟨token, start⟩ := l
      rintro ⟨word, hfound, rfl, rfl⟩
      cases hfound
      rfl

theorem scanStep_eq_ended_iff {ending : Ending} :
    scanStep offset cs = .ended ending ↔ longestToken? (splitGap cs).2 = none ∧
      ending = endingAt (offset + byteLength (splitGap cs).1) (splitGap cs).2 := by
  rw [scanStep_eq]
  cases longestToken? (splitGap cs).2 with
  | none => simp only [Step.ended.injEq, true_and, eq_comm]
  | some found => simp

end Step

/-- **A scan finds the reading by longest matches.** -/
theorem scan_munches (offset : Nat) (cs : List Char) :
    ∃ ps gap unread, Munches cs ps gap unread ∧
      scan offset cs = (lexemesFrom offset ps,
        endingAt (offset + byteLength (ps.flatMap Piece.chars ++ gap)) unread) := by
  fun_induction scan offset cs with
  | case1 offset cs ending hstep =>
    obtain ⟨hnone, rfl⟩ := scanStep_eq_ended_iff.mp hstep
    exact ⟨[], (splitGap cs).1, (splitGap cs).2, .stop (splitGap_append cs).symm
      (isLongest_splitGap cs) fun word => not_isToken_of_longestToken? hnone, rfl⟩
  | case2 offset cs l rest next hstep hlt ls ending hscan ih =>
    obtain ⟨token, start⟩ := l
    obtain ⟨word, htoken, rfl, rfl⟩ := scanStep_eq_lexeme_iff.mp hstep
    obtain ⟨ps, last, unread, hrest, heq⟩ := ih
    have hword := (longestToken?_eq_some htoken).2
    refine ⟨⟨(splitGap cs).1, token, word⟩ :: ps, last, unread, .piece ?_ (isLongest_splitGap cs)
      (writtenAs_of_longestToken? htoken) ?_ hrest, ?_⟩
    · rw [Piece.chars, List.append_assoc, hword, splitGap_append]
    · show IsLongest IsToken word (word ++ rest)
      rw [hword]
      exact isLongest_of_longestToken? htoken
    · rw [hscan, Prod.mk.injEq] at heq
      obtain ⟨rfl, rfl⟩ := heq
      simp [lexemesFrom, Piece.chars, Nat.add_assoc]

end Token
end Datalog
