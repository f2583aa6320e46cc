import Datalog.Token
import Datalog.Total

/-!
# Reading tokens from a text

A text is read by alternating two steps: skip the *gap*, the longest run of blanks and comments,
and take the longest token that starts there.  Blanks are the space, the tab, the carriage return
and the line feed; a comment runs from a percent sign up to the next line feed, which is a blank
again.

* `splitGap`: the gap in front of a text, and what follows it.
* `longestToken?`: the longest token at the beginning of a text, with the characters it takes.
* `scanStep`: one gap and one token, or the reason why there is none.
* `scan`: all tokens of a text, and how the text ends.

## Why the reading ends

`scanStep` reports a token only together with a strictly shorter rest (`length_lt_of_scanStep`),
because every token takes at least one character.  So `scan` may recurse on the rest.  How a text
ends is a value of its own, `Ending`: either nothing but a gap was left, or some character starts
no token.  Past either of them there is nothing to read.
-/

namespace Datalog

/-- The number of bytes that characters take in UTF-8. -/
def byteLength (cs : List Char) : Nat := total (cs.map Char.utf8Size)

namespace Token

/-- The characters that separate tokens. -/
def isBlank (c : Char) : Bool := c = ' ' || c = '\t' || c = '\r' || c = '\n'

/-- A letter, a digit or an underscore; ASCII only. -/
def isWordChar (c : Char) : Bool := c.isAlphanum || c = '_'

/-- The first characters of symbols. -/
def startsSymbol (c : Char) : Bool := c.isLower || c.isDigit

/-- The first characters of variables. -/
def startsVariable (c : Char) : Bool := c.isUpper || c = '_'

/-- Split a text behind its gap.  The flag says whether the text begins inside a comment. -/
def splitGapFrom : Bool → List Char → List Char × List Char
  | _, [] => ([], [])
  | true, c :: cs =>
    let (gap, rest) := splitGapFrom (c != '\n') cs
    (c :: gap, rest)
  | false, c :: cs =>
    if isBlank c || c = '%' then
      let (gap, rest) := splitGapFrom (c = '%') cs
      (c :: gap, rest)
    else ([], c :: cs)

/-- The longest run of blanks and comments in front of a text, and what follows it. -/
def splitGap (cs : List Char) : List Char × List Char := splitGapFrom false cs

/-- The punctuation mark or arrow at the beginning of a text, its characters, and what follows. -/
def punctuation? : List Char → Option (Token × List Char × List Char)
  | '(' :: cs => some (.lparen, ['('], cs)
  | ')' :: cs => some (.rparen, [')'], cs)
  | ',' :: cs => some (.comma, [','], cs)
  | '.' :: cs => some (.period, ['.'], cs)
  | ':' :: '-' :: cs => some (.implies, [':', '-'], cs)
  | _ => none

/-- The longest token at the beginning of a text, its characters, and what follows them. -/
def longestToken? : List Char → Option (Token × List Char × List Char)
  | [] => none
  | c :: cs =>
    let word := c :: cs.takeWhile isWordChar
    if startsSymbol c then
      some (.symbol (String.ofList word), word, cs.dropWhile isWordChar)
    else if startsVariable c then
      some (.var (String.ofList word), word, cs.dropWhile isWordChar)
    else punctuation? (c :: cs)

/-- How the reading of a text ends. -/
inductive Ending where
  /-- The text is used up, at this byte offset. -/
  | finished (offset : Nat)
  /-- No token starts at the place reached. -/
  | unreadable (e : UnreadableText)
  deriving DecidableEq, Repr

/-- The place at which the reading ends. -/
def Ending.offset : Ending → Nat
  | finished offset => offset
  | unreadable e => e.offset

/-- What the reader of a text is told when it asks for the token at the end. -/
def Ending.item : Ending → Except UnreadableText Lexeme
  | finished offset => .ok ⟨.endOfText, offset⟩
  | unreadable e => .error e

/-- The outcome of reading one gap and one token. -/
inductive Step where
  /-- A token, what follows it, and where that begins. -/
  | lexeme (l : Lexeme) (rest : List Char) (offset : Nat)
  /-- There is no further token. -/
  | ended (ending : Ending)
  deriving DecidableEq, Repr

/-- Read one gap and one token from a text that begins at the given byte offset. -/
def scanStep (offset : Nat) (cs : List Char) : Step :=
  let (gap, text) := splitGap cs
  let start := offset + byteLength gap
  match text with
  | [] => .ended (.finished start)
  | c :: _ =>
    match longestToken? text with
    | some (token, word, rest) => .lexeme ⟨token, start⟩ rest (start + byteLength word)
    | none => .ended (.unreadable ⟨start, c⟩)

/-! ## Nothing is lost, and every token takes a character -/

theorem splitGapFrom_append (b : Bool) (cs : List Char) :
    (splitGapFrom b cs).1 ++ (splitGapFrom b cs).2 = cs := by
  induction cs generalizing b with
  | nil => cases b <;> rfl
  | cons c cs ih =>
    cases b with
    | true => simp only [splitGapFrom, List.cons_append, ih]
    | false =>
      by_cases h : isBlank c || c = '%'
      · simp only [splitGapFrom, if_pos h, List.cons_append, ih]
      · simp only [splitGapFrom, if_neg h, List.nil_append]

/-- A text is its gap and what follows. -/
theorem splitGap_append (cs : List Char) : (splitGap cs).1 ++ (splitGap cs).2 = cs :=
  splitGapFrom_append false cs

theorem punctuation?_eq_some {cs word rest : List Char} {token : Token}
    (h : punctuation? cs = some (token, word, rest)) : word ≠ [] ∧ word ++ rest = cs := by
  unfold punctuation? at h
  split at h <;> cases h <;> exact ⟨List.cons_ne_nil _ _, rfl⟩

/-- A token takes at least one character, and the rest of the text follows its characters. -/
theorem longestToken?_eq_some {cs word rest : List Char} {token : Token}
    (h : longestToken? cs = some (token, word, rest)) : word ≠ [] ∧ word ++ rest = cs := by
  cases cs with
  | nil => cases h
  | cons c cs =>
    simp only [longestToken?] at h
    split at h
    · cases h
      simp
    · split at h
      · cases h
        simp
      · exact punctuation?_eq_some h

theorem length_lt_of_scanStep {offset next : Nat} {cs rest : List Char} {l : Lexeme}
    (h : scanStep offset cs = .lexeme l rest next) : rest.length < cs.length := by
  unfold scanStep at h
  have happ := splitGap_append cs
  generalize splitGap cs = p at h happ
  obtain ⟨gap, text⟩ := p
  simp only at h happ
  split at h
  · exact absurd h (by simp)
  · split at h
    · next token word tail htok =>
      injection h with _ hrest _
      obtain ⟨hne, hword⟩ := longestToken?_eq_some htok
      have hlen := congrArg List.length happ
      rw [← hword] at hlen
      have hpos : 0 < word.length := List.length_pos_iff.mpr hne
      simp only [List.length_append] at hlen
      subst hrest
      omega
    · exact absurd h (by simp)

/-! ## All tokens of a text -/

/-- All tokens of a text that begins at the given byte offset, and how the text ends. -/
def scan (offset : Nat) (cs : List Char) : List Lexeme × Ending :=
  match h : scanStep offset cs with
  | .ended ending => ([], ending)
  | .lexeme l rest next =>
    have : rest.length < cs.length := length_lt_of_scanStep h
    let (ls, ending) := scan next rest
    (l :: ls, ending)
termination_by cs.length

end Token

end Datalog
