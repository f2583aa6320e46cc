import Datalog.Proofs.Token.Stream

/-!
# Texts joined by a line feed

When two texts are joined by a line feed, the tokens of the first one are found as before, and
behind them those of the second one, as far behind as that text has been moved
(`Token.scan_newline`).

* `Lexeme.behind`, `UnreadableText.behind`, `Token.Ending.behind`: the same thing in a text that
  begins later.
* `Token.scan_add`: where a text begins does not matter for what is found in it.

## Why it has to be a line feed

What stands at the joint must end whatever the first text has begun.  A name that goes on to the end
of the first text would take the first letters of the second one, and a comment would take all of
it, up to its first line feed.  A line feed ends both: it is a blank, and it is where comments end.
It is skipped itself, together with the gap at the end of the first text and that at the beginning
of the second one.
-/

namespace Datalog

/-- The same lexeme in a text that begins later. -/
def Lexeme.behind (distance : Nat) (l : Lexeme) : Lexeme :=
  { l with offset := l.offset + distance }

/-- The same unreadable place in a text that begins later. -/
def UnreadableText.behind (distance : Nat) (e : UnreadableText) : UnreadableText :=
  { e with offset := e.offset + distance }

namespace Token

/-- The same ending of a text that begins later. -/
def Ending.behind (distance : Nat) : Ending → Ending
  | finished offset => finished (offset + distance)
  | unreadable e => unreadable (e.behind distance)

/-! ## Texts that begin later -/

section Behind

variable {offset distance : Nat} {cs : List Char}

theorem endingAt_add (offset distance : Nat) (text : List Char) :
    endingAt (offset + distance) text = (endingAt offset text).behind distance := by
  cases text <;> rfl

theorem scanStep_add_of_ended {ending : Ending} (h : scanStep offset cs = .ended ending) :
    scanStep (offset + distance) cs = .ended (ending.behind distance) := by
  obtain ⟨hnone, rfl⟩ := scanStep_eq_ended_iff.mp h
  refine scanStep_eq_ended_iff.mpr ⟨hnone, ?_⟩
  rw [Nat.add_right_comm]
  exact (endingAt_add _ _ _).symm

theorem scanStep_add_of_lexeme {l : Lexeme} {rest : List Char} {next : Nat}
    (h : scanStep offset cs = .lexeme l rest next) :
    scanStep (offset + distance) cs = .lexeme (l.behind distance) rest (next + distance) := by
  obtain ⟨word, htoken, hstart, rfl⟩ := scanStep_eq_lexeme_iff.mp h
  have hmoved : (l.behind distance).offset = offset + distance + byteLength (splitGap cs).1 := by
    rw [Nat.add_right_comm, ← hstart]
    rfl
  exact scanStep_eq_lexeme_iff.mpr ⟨word, htoken, hmoved, Nat.add_right_comm _ _ _⟩

/-- **In a text that begins later, the same tokens are found**, each as much further behind. -/
theorem scan_add (offset distance : Nat) (cs : List Char) :
    scan (offset + distance) cs =
      ((scan offset cs).1.map (Lexeme.behind distance), (scan offset cs).2.behind distance) := by
  fun_induction scan offset cs with
  | case1 offset cs ending hstep => exact scan_of_ended (scanStep_add_of_ended hstep)
  | case2 offset cs l rest next hstep hlt ls ending hscan ih =>
    rw [hscan] at ih
    rw [scan_of_lexeme (scanStep_add_of_lexeme hstep), ih]
    rfl

end Behind

/-! ## The gap at the joint -/

/-- A gap in front of a token is the same in a longer text. -/
theorem splitGapFrom_append_of_text {inside : Bool} {cs gap text : List Char}
    (h : splitGapFrom inside cs = (gap, text)) (htext : text ≠ []) (more : List Char) :
    splitGapFrom inside (cs ++ more) = (gap, text ++ more) := by
  induction cs generalizing inside gap with
  | nil =>
    cases inside <;>
    · cases h
      exact absurd rfl htext
  | cons c cs ih =>
    rw [List.cons_append]
    cases inside with
    | true =>
      rw [splitGapFrom] at h ⊢
      obtain ⟨rfl, hrest⟩ := Prod.mk.inj h
      rw [ih (Prod.ext rfl hrest)]
    | false =>
      rw [splitGapFrom] at h ⊢
      split at h
      · next hgap =>
        obtain ⟨rfl, hrest⟩ := Prod.mk.inj h
        rw [if_pos hgap, ih (Prod.ext rfl hrest)]
      · next hgap =>
        cases h
        rw [if_neg hgap]
        rfl

/-- A gap at the end of a text goes on behind a line feed, also from within a comment. -/
theorem splitGapFrom_newline {inside : Bool} {cs : List Char}
    (h : (splitGapFrom inside cs).2 = []) (more : List Char) :
    splitGapFrom inside (cs ++ '\n' :: more) =
      (cs ++ '\n' :: (splitGap more).1, (splitGap more).2) := by
  induction cs generalizing inside with
  | nil => cases inside <;> rfl
  | cons c cs ih =>
    rw [List.cons_append]
    cases inside with
    | true =>
      rw [splitGapFrom] at h ⊢
      rw [ih h]
      rfl
    | false =>
      rw [splitGapFrom] at h ⊢
      split at h
      · next hgap =>
        rw [if_pos hgap, ih h]
        rfl
      · cases h

/-! ## The tokens on either side -/

theorem takeWhile_append_newline (cs more : List Char) :
    (cs ++ '\n' :: more).takeWhile isWordChar = cs.takeWhile isWordChar ∧
      (cs ++ '\n' :: more).dropWhile isWordChar = cs.dropWhile isWordChar ++ '\n' :: more := by
  have hstop : isWordChar '\n' = false := by decide
  induction cs with
  | nil => simp [hstop]
  | cons c cs ih => cases hc : isWordChar c <;> simp [hc, ih]

/-- What follows a punctuation mark takes no part in it. -/
theorem punctuation?_append {cs word rest : List Char} {token : Token}
    (h : punctuation? cs = some (token, word, rest)) (more : List Char) :
    punctuation? (cs ++ more) = some (token, word, rest ++ more) := by
  unfold punctuation? at h
  split at h <;> cases h <;> rfl

/-- A line feed takes no part in a token. -/
theorem longestToken?_newline {cs word rest : List Char} {token : Token}
    (h : longestToken? cs = some (token, word, rest)) (more : List Char) :
    longestToken? (cs ++ '\n' :: more) = some (token, word, rest ++ '\n' :: more) := by
  cases cs with
  | nil => cases h
  | cons c cs =>
    obtain ⟨htake, hdrop⟩ := takeWhile_append_newline cs more
    rw [List.cons_append]
    simp only [longestToken?, htake, hdrop] at h ⊢
    split at h
    · next hsymbol =>
      cases h
      rw [if_pos hsymbol]
    · next hsymbol =>
      rw [if_neg hsymbol]
      split at h
      · next hvar =>
        cases h
        rw [if_pos hvar]
      · next hvar =>
        rw [if_neg hvar]
        exact punctuation?_append h ('\n' :: more)

section Joint

variable {offset : Nat} {cs : List Char}

/-- The end of the first text is a part of the gap in front of the second one. -/
theorem scanStep_newline_of_finished {stop : Nat}
    (h : scanStep offset cs = .ended (.finished stop)) (more : List Char) :
    scanStep offset (cs ++ '\n' :: more) = scanStep (offset + byteLength cs + 1) more := by
  obtain ⟨-, hending⟩ := scanStep_eq_ended_iff.mp h
  have hgap : (splitGap cs).2 = [] := by
    cases htext : (splitGap cs).2 with
    | nil => rfl
    | cons c text =>
      rw [htext] at hending
      cases hending
  have hlength : byteLength (cs ++ '\n' :: (splitGap more).1) =
      byteLength cs + 1 + byteLength (splitGap more).1 := by
    rw [byteLength_append, byteLength_cons, ← Nat.add_assoc]
    rfl
  have hsplit : splitGap (cs ++ '\n' :: more) =
      (cs ++ '\n' :: (splitGap more).1, (splitGap more).2) := splitGapFrom_newline hgap more
  rw [scanStep_eq, scanStep_eq, hsplit]
  simp only [hlength, ← Nat.add_assoc]

theorem scanStep_newline_of_lexeme {l : Lexeme} {rest : List Char} {next : Nat}
    (h : scanStep offset cs = .lexeme l rest next) (more : List Char) :
    scanStep offset (cs ++ '\n' :: more) = .lexeme l (rest ++ '\n' :: more) next := by
  obtain ⟨word, htoken, hstart, hnext⟩ := scanStep_eq_lexeme_iff.mp h
  have htext : (splitGap cs).2 ≠ [] := by
    intro hnil
    rw [hnil] at htoken
    cases htoken
  have hsplit : splitGap (cs ++ '\n' :: more) =
      ((splitGap cs).1, (splitGap cs).2 ++ '\n' :: more) :=
    splitGapFrom_append_of_text rfl htext _
  rw [scanStep_eq_lexeme_iff, hsplit]
  exact ⟨word, longestToken?_newline htoken more, hstart, hnext⟩

/-- The gap, the token and the rest are the whole text. -/
theorem next_of_scanStep {l : Lexeme} {rest : List Char} {next : Nat}
    (h : scanStep offset cs = .lexeme l rest next) :
    next + byteLength rest = offset + byteLength cs := by
  obtain ⟨word, htoken, hstart, rfl⟩ := scanStep_eq_lexeme_iff.mp h
  have hlength := congrArg byteLength (splitGap_append cs)
  rw [← (longestToken?_eq_some htoken).2, byteLength_append, byteLength_append] at hlength
  rw [hstart, ← hlength, Nat.add_assoc, Nat.add_assoc]

/-- **Behind a line feed, a text is read as if it stood alone**, if all of the text before has been
read. -/
theorem scan_newline {stop : Nat} {ls : List Lexeme} (h : scan offset cs = (ls, .finished stop))
    (more : List Char) :
    scan offset (cs ++ '\n' :: more) =
      (ls ++ (scan (offset + byteLength cs + 1) more).1,
        (scan (offset + byteLength cs + 1) more).2) := by
  fun_induction scan offset cs generalizing ls with
  | case1 offset cs ending hstep =>
    cases h
    have hjoint := scanStep_newline_of_finished hstep more
    cases hmore : scanStep (offset + byteLength cs + 1) more with
    | ended ending => rw [scan_of_ended (hjoint.trans hmore), scan_of_ended hmore]; rfl
    | lexeme l rest next => rw [scan_of_lexeme (hjoint.trans hmore), scan_of_lexeme hmore]; rfl
  | case2 offset cs l rest next hstep hlt ls' ending hscan ih =>
    obtain ⟨rfl, rfl⟩ := Prod.mk.inj h
    rw [scan_of_lexeme (scanStep_newline_of_lexeme hstep more), ih hscan, next_of_scanStep hstep]
    rfl

end Joint

end Token
end Datalog
