import Datalog.Clause
import Datalog.Text.Quoted

/-!
# Tokens

The words of the notation: names, four punctuation marks, the arrow of a rule, and a last token
for the end of the text.  A name that starts with a lower-case letter or a digit is a *symbol* and
stands for a predicate or a constant; one that starts with an upper-case letter or an underscore
is a *variable*.  Letters and digits are the ASCII ones only.

* `Token`, `Token.Kind`: tokens, and the classes in which messages speak of them.
* `Lexeme`: a token together with the place where it starts, as a byte offset into the text.
* `UnreadableText`: the failure to find a token, at the place of the first character that starts
  none.
-/

namespace Datalog

namespace Token

/-- The classes of tokens. -/
inductive Kind where
  /-- The name of a predicate or a constant. -/
  | symbol
  /-- The name of a variable. -/
  | var
  /-- An opening parenthesis. -/
  | lparen
  /-- A closing parenthesis. -/
  | rparen
  /-- A comma. -/
  | comma
  /-- A period. -/
  | period
  /-- The arrow between head and body. -/
  | implies
  /-- The end of the text. -/
  | endOfText
  deriving DecidableEq, Repr

/-- How a message speaks of a class of tokens. -/
def Kind.text : Kind → String
  | symbol => "symbol"
  | var => "variable"
  | lparen => "`(`"
  | rparen => "`)`"
  | comma => "`,`"
  | period => "`.`"
  | implies => "`:-`"
  | endOfText => "end of input"

end Token

/-- A word of the notation. -/
inductive Token where
  /-- The name of a predicate or a constant. -/
  | symbol (name : String)
  /-- The name of a variable. -/
  | var (name : String)
  /-- An opening parenthesis. -/
  | lparen
  /-- A closing parenthesis. -/
  | rparen
  /-- A comma. -/
  | comma
  /-- A period. -/
  | period
  /-- The arrow between head and body. -/
  | implies
  /-- The end of the text. -/
  | endOfText
  deriving DecidableEq, Repr

namespace Token

/-- The class of a token. -/
def kind : Token → Kind
  | symbol _ => .symbol
  | var _ => .var
  | lparen => .lparen
  | rparen => .rparen
  | comma => .comma
  | period => .period
  | implies => .implies
  | endOfText => .endOfText

/-- How a message speaks of a token: names are quoted, all else goes by its class. -/
def text : Token → String
  | symbol name => "symbol `" ++ name ++ "`"
  | var name => "variable `" ++ name ++ "`"
  | token => token.kind.text

/-- The name that a symbol carries. -/
def symbol? : Token → Option String
  | symbol name => some name
  | _ => none

end Token

/-- A token and the byte offset at which it starts. -/
structure Lexeme where
  /-- The token. -/
  token : Token
  /-- Where it starts, in bytes from the beginning of the text. -/
  offset : Nat
  deriving DecidableEq, Repr

/-- A place in a text where no token starts. -/
structure UnreadableText where
  /-- The place, in bytes from the beginning of the text. -/
  offset : Nat
  /-- The character found there. -/
  character : Char
  deriving DecidableEq, Repr

/-- The report of an unreadable place. -/
def UnreadableText.message (e : UnreadableText) : String :=
  "unexpected character " ++ quotedChar e.character ++ " at offset " ++ toString e.offset

end Datalog
