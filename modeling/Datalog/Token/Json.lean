import Datalog.JsonText.Decoder

/-!
# Token classes as JSON texts

A class of tokens is written by its name.
-/

namespace Datalog
namespace Token
namespace Kind

open JsonText

/-- The name of a class. -/
def name : Kind → String
  | symbol => "Symbol"
  | var => "Variable"
  | lparen => "LParen"
  | rparen => "RParen"
  | comma => "Comma"
  | period => "Period"
  | implies => "Implies"
  | endOfText => "End"

/-- The class of a name. -/
def ofName? : String → Option Kind
  | "Symbol" => some symbol
  | "Variable" => some var
  | "LParen" => some lparen
  | "RParen" => some rparen
  | "Comma" => some comma
  | "Period" => some period
  | "Implies" => some implies
  | "End" => some endOfText
  | _ => none

/-- Read a class. -/
def decoder : Decoder Kind := plainVariant ofName?

end Kind
end Token
end Datalog
