/-!
# Writing JSON texts

Values are written without blanks.  In a string, the quote, the backslash and the control characters
are escaped, the common ones by a letter and the others by four hexadecimal digits; every other
character stands for itself.
-/

namespace Datalog
namespace JsonText

/-- How a character is spelled inside a string. -/
def escape (c : Char) : List Char :=
  match c with
  | '"' => ['\\', '"']
  | '\\' => ['\\', '\\']
  | '\x08' => ['\\', 'b']
  | '\x0c' => ['\\', 'f']
  | '\n' => ['\\', 'n']
  | '\r' => ['\\', 'r']
  | '\t' => ['\\', 't']
  | c =>
    if c.toNat < 0x20 then
      ['\\', 'u', '0', '0', Nat.digitChar (c.toNat / 16), Nat.digitChar (c.toNat % 16)]
    else [c]

/-- A string. -/
def writeString (s : String) : List Char := '"' :: s.toList.flatMap escape ++ ['"']

/-- A count. -/
def writeCount (n : Nat) : List Char := Nat.toDigits 10 n

/-- A truth value. -/
def writeBoolean (b : Bool) : List Char := if b then "true".toList else "false".toList

/-- The word `null`, or a value. -/
def writeOptional {α : Type} (write : α → List Char) : Option α → List Char
  | none => "null".toList
  | some a => write a

/-- Texts with a comma between neighbours. -/
def withCommas : List (List Char) → List Char
  | [] => []
  | [t] => t
  | t :: ts => t ++ ',' :: withCommas ts

/-- An array of values that have been written. -/
def writeArray (values : List (List Char)) : List Char := '[' :: withCommas values ++ [']']

/-- An object with members whose values have been written. -/
def writeObject (members : List (String × List Char)) : List Char :=
  '\x7b' :: withCommas (members.map fun m => writeString m.1 ++ ':' :: m.2) ++ ['\x7d']

end JsonText
end Datalog
