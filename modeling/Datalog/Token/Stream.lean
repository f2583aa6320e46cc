import Datalog.Token.Scan

/-!
# Token streams

A `TokenStream` hands out the tokens of a text one at a time.  It gives the token for the end of
the text once, or the report of an unreadable place once, and after either of them nothing until
it is reset.

* `TokenStream.ofText`, `TokenStream.reset`: the stream at the beginning of its text.
* `TokenStream.next`: the next item and the stream behind it.
* `TokenStream.drain`: all items still to come and the stream behind them.
-/

namespace Datalog

/-- A text being read token by token. -/
structure TokenStream where
  /-- The whole text. -/
  text : String
  /-- What is still to be read; `none` once the last item has been handed out. -/
  rest : Option (List Char)
  /-- The byte offset of the place reached. -/
  offset : Nat
  deriving DecidableEq, Repr

namespace TokenStream

/-- What a stream hands out: a token with its place, or the report of an unreadable place. -/
abbrev Item := Except UnreadableText Lexeme

/-- The stream at the beginning of a text. -/
def ofText (text : String) : TokenStream := ⟨text, some text.toList, 0⟩

/-- The stream at the beginning of its text again. -/
def reset (s : TokenStream) : TokenStream := ofText s.text

/-- The next item, and the stream behind it. -/
def next (s : TokenStream) : Option Item × TokenStream :=
  match s.rest with
  | none => (none, s)
  | some cs =>
    match Token.scanStep s.offset cs with
    | .lexeme l rest offset => (some (.ok l), { s with rest := some rest, offset := offset })
    | .ended ending => (some ending.item, { s with rest := none, offset := ending.offset })

/-- All items still to come, and the stream behind them. -/
def drain (s : TokenStream) : List Item × TokenStream :=
  match s.rest with
  | none => ([], s)
  | some cs =>
    let (lexemes, ending) := Token.scan s.offset cs
    (lexemes.map .ok ++ [ending.item], { s with rest := none, offset := ending.offset })

end TokenStream

end Datalog
