import Datalog.Text.Visible

/-!
# Quoted characters

A message that names a single character puts it between apostrophes.  A visible character stands
for itself, the apostrophe and the backslash are escaped by a backslash, four control characters
have a letter, and every other hidden character is given by its code point in lower-case
hexadecimal digits, as in `'\u{200b}'`.
-/

namespace Datalog

/-- How a character is spelled between apostrophes. -/
def escapedChar (c : Char) : String :=
  if c = '\x00' then "\\0"
  else if c = '\t' then "\\t"
  else if c = '\r' then "\\r"
  else if c = '\n' then "\\n"
  else if c = '\\' then "\\\\"
  else if c = '\'' then "\\'"
  else if isVisible c then String.singleton c
  else "\\u\x7b" ++ String.ofList (Nat.toDigits 16 c.toNat) ++ "\x7d"

/-- A character between apostrophes. -/
def quotedChar (c : Char) : String := "'" ++ escapedChar c ++ "'"

end Datalog
