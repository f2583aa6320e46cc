import Datalog.Token.Scan

/-!
# The words of JSON texts

JSON texts are read from left to right, and reading stops at the first fault.  This module reads
the parts that have no parts: blanks, the words `null`, `true` and `false`, strings and numbers.

* `Fault`: what may be wrong with a text.
* `readString`: a string, with its escapes resolved.
* `readNumber`: a number, of which only the small naturals are told apart.
* `skipString`, `skipNumber`: the same words where their value does not matter.

## Reading and skipping differ

A string that is read must denote a text, so a surrogate that is not part of a pair is a fault in
it; a string that is skipped need only have the form of one.  A number that is read must lie in the
range of 64-bit binary floating point, and a text that ends inside of it is cut off; in a number
that is skipped only the form matters, and its end is a fault in the form.
-/

namespace Datalog
namespace JsonText

/-- What may be wrong with a JSON text. -/
inductive Fault where
  /-- The text is not JSON. -/
  | malformed
  /-- The text ends inside a value. -/
  | truncated
  /-- The text has JSON of the wrong shape. -/
  | mismatched
  deriving DecidableEq, Repr

/-- The characters that may stand between words. -/
def isBlank (c : Char) : Bool := c = ' ' || c = '\t' || c = '\n' || c = '\r'

/-- What follows the blanks at the beginning of a text. -/
def skipBlanks (cs : List Char) : List Char := cs.dropWhile isBlank

/-- What follows a fixed word. -/
def readWord : List Char → List Char → Except Fault (List Char)
  | [], cs => .ok cs
  | _ :: _, [] => .error .truncated
  | w :: ws, c :: cs => if c = w then readWord ws cs else .error .malformed

/-! ## Strings -/

/-- The value of a hexadecimal digit. -/
def hexDigit? (c : Char) : Option Nat :=
  if '0' ≤ c && c ≤ '9' then some (c.toNat - 48)
  else if 'a' ≤ c && c ≤ 'f' then some (c.toNat - 87)
  else if 'A' ≤ c && c ≤ 'F' then some (c.toNat - 55)
  else none

/-- The value of four hexadecimal digits. -/
def hexValue? (a b c d : Char) : Option Nat := do
  let a ← hexDigit? a
  let b ← hexDigit? b
  let c ← hexDigit? c
  let d ← hexDigit? d
  pure (a * 4096 + b * 256 + c * 16 + d)

/-- The fault in an escape that has too few characters left for its four digits: the text is cut
off, unless even the bytes that are left would be four. -/
def shortEscape (rest : List Char) : Fault :=
  if byteLength rest < 4 then .truncated else .malformed

/-- The character that an escape of a single letter stands for. -/
def unescape? : Char → Option Char
  | '"' => some '"'
  | '\\' => some '\\'
  | '/' => some '/'
  | 'b' => some '\x08'
  | 'f' => some '\x0c'
  | 'n' => some '\n'
  | 'r' => some '\r'
  | 't' => some '\t'
  | _ => none

/-- Whether a number is the first half of a surrogate pair. -/
def isHighSurrogate (n : Nat) : Bool := 0xD800 ≤ n && n ≤ 0xDBFF

/-- Whether a number is the second half of a surrogate pair. -/
def isLowSurrogate (n : Nat) : Bool := 0xDC00 ≤ n && n ≤ 0xDFFF

/-- The character of a surrogate pair. -/
def pairChar (high low : Nat) : Char :=
  Char.ofNat ((high - 0xD800) * 0x400 + (low - 0xDC00) + 0x10000)

/-- Put a character in front of what has been read. -/
def consChar (c : Char) : Except Fault (List Char × List Char) →
    Except Fault (List Char × List Char)
  | .ok (cs, rest) => .ok (c :: cs, rest)
  | .error e => .error e

/-- The characters of a string whose opening quote has been read, and what follows its closing
quote. -/
def readString : List Char → Except Fault (List Char × List Char)
  | [] => .error .truncated
  | '"' :: rest => .ok ([], rest)
  | ['\\'] => .error .truncated
  | '\\' :: 'u' :: a :: b :: c :: d :: rest =>
    match hexValue? a b c d with
    | none => .error .malformed
    | some n =>
      if isLowSurrogate n then .error .malformed
      else if isHighSurrogate n then
        match rest with
        | [] => .error .truncated
        | ['\\'] => .error .truncated
        | '\\' :: 'u' :: e :: f :: g :: h :: rest' =>
          match hexValue? e f g h with
          | none => .error .malformed
          | some m =>
            if isLowSurrogate m then consChar (pairChar n m) (readString rest')
            else .error .malformed
        | '\\' :: 'u' :: rest' => .error (shortEscape rest')
        | _ => .error .malformed
      else consChar (Char.ofNat n) (readString rest)
  | '\\' :: 'u' :: rest => .error (shortEscape rest)
  | '\\' :: l :: rest =>
    match unescape? l with
    | none => .error .malformed
    | some c => consChar c (readString rest)
  | c :: rest => if c.toNat < 0x20 then .error .malformed else consChar c (readString rest)

/-- What follows a string whose opening quote has been read and whose characters do not matter. -/
def skipString : List Char → Except Fault (List Char)
  | [] => .error .truncated
  | '"' :: rest => .ok rest
  | ['\\'] => .error .truncated
  | '\\' :: 'u' :: a :: b :: c :: d :: rest =>
    match hexValue? a b c d with
    | none => .error .malformed
    | some _ => skipString rest
  | '\\' :: 'u' :: rest => .error (shortEscape rest)
  | '\\' :: l :: rest =>
    match unescape? l with
    | none => .error .malformed
    | some _ => skipString rest
  | c :: rest => if c.toNat < 0x20 then .error .malformed else skipString rest

/-! ## Numbers -/

/-- The digits at the beginning of a text, and what follows them. -/
def splitDigits (cs : List Char) : List Char × List Char :=
  (cs.takeWhile Char.isDigit, cs.dropWhile Char.isDigit)

/-- The value of decimal digits. -/
def digitsValue (ds : List Char) : Nat := ds.foldl (fun n d => n * 10 + (d.toNat - 48)) 0

/-- At least one digit, and what follows; the flag says whether the end of the text counts as cut
off. -/
def someDigits (cutOff : Bool) (cs : List Char) : Except Fault (List Char × List Char) :=
  match splitDigits cs with
  | ([], []) => .error (if cutOff then .truncated else .malformed)
  | ([], _) => .error .malformed
  | (ds, rest) => .ok (ds, rest)

/-- The parts of a number without its sign. -/
structure Numeral where
  /-- The digits in front of the point. -/
  whole : List Char
  /-- The digits behind the point, if there is one. -/
  fraction : Option (List Char)
  /-- Whether the exponent is negative, and its digits, if there is one. -/
  exponent : Option (Bool × List Char)
  deriving DecidableEq, Repr

/-- The digits in front of the point: a zero stands alone. -/
def readWhole (cutOff : Bool) : List Char → Except Fault (List Char × List Char)
  | '0' :: c :: rest => if c.isDigit then .error .malformed else .ok (['0'], c :: rest)
  | cs => someDigits cutOff cs

/-- The point and the digits behind it, if there is a point. -/
def readFraction (cutOff : Bool) : List Char → Except Fault (Option (List Char) × List Char)
  | '.' :: rest => do
    let (ds, rest) ← someDigits cutOff rest
    pure (some ds, rest)
  | cs => .ok (none, cs)

/-- The exponent, if there is one. -/
def readExponent (cutOff : Bool) : List Char →
    Except Fault (Option (Bool × List Char) × List Char)
  | c :: rest =>
    if c = 'e' || c = 'E' then do
      let (negative, rest) := match rest with
        | '+' :: rest' => (false, rest')
        | '-' :: rest' => (true, rest')
        | _ => (false, rest)
      let (ds, rest) ← someDigits cutOff rest
      pure (some (negative, ds), rest)
    else .ok (none, c :: rest)
  | [] => .ok (none, [])

/-- A number without its sign, and what follows it. -/
def readNumeral (cutOff : Bool) (cs : List Char) : Except Fault (Numeral × List Char) := do
  let (whole, cs) ← readWhole cutOff cs
  let (fraction, cs) ← readFraction cutOff cs
  let (exponent, cs) ← readExponent cutOff cs
  pure (⟨whole, fraction, exponent⟩, cs)

/-- The naturals that count things have 64 bits. -/
def countLimit : Nat := Nat.pow 2 64

/-- The value of as many of the given digits as keep it below the limit of counts, behind a value
read before, and how many digits these are. -/
def leadingDigits (value : Nat) : List Char → Nat × Nat
  | [] => (value, 0)
  | d :: ds =>
    let next := value * 10 + (d.toNat - 48)
    if next < countLimit then
      let (all, taken) := leadingDigits next ds
      (all, taken + 1)
    else (value, 0)

/-- A number rounded to 53 significant binary places; a number halfway between two such goes to the
one whose last place is even. -/
def roundToBinary53 (n : Nat) : Nat :=
  let unit := Nat.pow 2 (n.log2 + 1 - 53)
  let places := n / unit
  let twice := 2 * (n % unit)
  let up := unit < twice || (twice = unit && places % 2 = 1)
  (if up then places + 1 else places) * unit

/-- The least number that rounds to no finite value of 64-bit binary floating point: it is halfway
between the greatest finite value and the next power of two. -/
def overflowThreshold : Nat := Nat.pow 2 1024 - Nat.pow 2 970

/-- The greatest exponent of a power of ten that rounds to a finite value. -/
def maxTenExponent : Int := 308

/-- Whether a number is out of the range of 64-bit binary floating point.  Its value is taken to be
the product of its leading digits with a power of ten, both rounded to 53 binary places; digits that
no longer fit into 64 bits count by their place only. -/
def Numeral.isTooLarge (n : Numeral) : Bool :=
  let (digits, taken) := leadingDigits 0 (n.whole ++ n.fraction.getD [])
  let shift : Int := match n.exponent with
    | none => 0
    | some (false, ds) => digitsValue ds
    | some (true, ds) => - (digitsValue ds : Int)
  let exponent := (n.whole.length : Int) - taken + shift
  if digits = 0 || exponent < 0 then false
  else if maxTenExponent < exponent then true
  else overflowThreshold ≤ roundToBinary53 digits * roundToBinary53 (Nat.pow 10 exponent.toNat)

/-- The value of a number that is written without point and exponent and is a count. -/
def Numeral.count? (n : Numeral) : Option Nat :=
  match n.fraction, n.exponent with
  | none, none =>
    let value := digitsValue n.whole
    if value < countLimit then some value else none
  | _, _ => none

/-- A number, and what follows it; the value is given if the number is a count. -/
def readNumber (cs : List Char) : Except Fault (Option Nat × List Char) := do
  let (negative, cs) := match cs with
    | '-' :: rest => (true, rest)
    | _ => (false, cs)
  let (n, rest) ← readNumeral true cs
  if n.isTooLarge then .error .malformed
  else pure (if negative then none else n.count?, rest)

/-- What follows a number whose value does not matter. -/
def skipNumber (cs : List Char) : Except Fault (List Char) := do
  let (_, rest) ← readNumeral false (match cs with | '-' :: rest => rest | _ => cs)
  pure rest

end JsonText
end Datalog
