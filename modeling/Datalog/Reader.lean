import Datalog.Clause.Grammar
import Datalog.Program
import Datalog.Vocabulary

/-!
# Readers

A `Reader` reads clauses or single atoms from a text.  It may be asked several times: each time it
goes on behind what has been read before, and past the end of the text there is just the end, as
often as one looks.  It also keeps the *vocabulary*, the distinct names of predicates and constants
met so far, which a further text may go on with.

* `Reader.ofText`, `Reader.onward`: a reader at the beginning of a text.
* `Reader.readClauses`, `Reader.readAtom`, `Reader.readProgram`: read all that is left.
* `LoadError`: why a text is refused.

## What a failure leaves behind

The grammar reports the lexemes from the failure on.  A lexeme that nothing accepts has been
taken from the text and is dropped; the symbols before it have been accepted and enter the
vocabulary, as do those of a clause that was complete but not well-formed.  An unreadable place is
reported once, and behind it the text counts as ended.
-/

namespace Datalog

/-- A token was found where others may stand. -/
structure UnexpectedToken where
  /-- How messages speak of the token found. -/
  found : String
  /-- The classes that would have been accepted. -/
  expected : List Token.Kind
  /-- Where the token starts, in bytes. -/
  offset : Nat
  deriving DecidableEq, Repr

/-- The given classes, separated by commas, the last one by "or". -/
def Token.Kind.alternatives : List Token.Kind → String
  | [] => "nothing"
  | [k] => k.text
  | k :: ks => commaSeparated ((k :: ks).dropLast.map text) ++ " or " ++ (ks.getLastD k).text

/-- The report of a token that nothing accepts. -/
def UnexpectedToken.message (e : UnexpectedToken) : String :=
  "unexpected " ++ e.found ++ " at offset " ++ toString e.offset ++ ", expected " ++
    Token.Kind.alternatives e.expected

/-- Why clauses are refused. -/
inductive LoadError where
  /-- No token starts at some place of the text. -/
  | unreadable (e : UnreadableText)
  /-- A token stands where the grammar has no use for it. -/
  | unexpected (e : UnexpectedToken)
  /-- A clause violates a condition. -/
  | illFormed (e : IllFormed)
  deriving DecidableEq, Repr

/-- The report of a refusal. -/
def LoadError.message : LoadError → String
  | unreadable e => e.message
  | unexpected e => e.message
  | illFormed e => e.message

/-- A text being read, and the names met so far. -/
structure Reader where
  /-- The lexemes still to be read. -/
  lexemes : List Lexeme
  /-- What stands behind them. -/
  ending : Token.Ending
  /-- The length of the text in bytes. -/
  size : Nat
  /-- The distinct names of predicates and constants met so far, in order. -/
  vocabulary : Vocabulary
  deriving DecidableEq, Repr

namespace Reader

/-- A reader at the beginning of a text, with a vocabulary to go on with. -/
def ofTextWith (vocabulary : Vocabulary) (text : String) : Reader :=
  let (lexemes, ending) := Token.scan 0 text.toList
  ⟨lexemes, ending, text.utf8ByteSize, vocabulary⟩

/-- A reader at the beginning of a text. -/
def ofText (text : String) : Reader := ofTextWith [] text

/-- A reader at the beginning of a further text, with the vocabulary of this one. -/
def onward (r : Reader) (text : String) : Reader := ofTextWith r.vocabulary text

/-- The reader in front of the given lexemes, those before them having been accepted. -/
def movedTo (r : Reader) (rest : List Lexeme) : Reader :=
  let accepted := r.lexemes.take (r.lexemes.length - rest.length)
  { r with
    lexemes := rest
    vocabulary := r.vocabulary.addAll (accepted.filterMap fun l => l.token.symbol?) }

/-- The reader behind the end of its text. -/
def exhausted (r : Reader) : Reader := { r with lexemes := [], ending := .finished r.size }

/-- Report what stands at the end of the text, where the given classes may follow. -/
def stopAtEnd {α : Type} (expected : List Token.Kind) : EStateM LoadError Reader α := fun r =>
  match r.ending with
  | .finished offset => .error (.unexpected ⟨Token.endOfText.text, expected, offset⟩) r
  | .unreadable e => .error (.unreadable e) r.exhausted

/-- Read all that is left by the given rule. -/
def readAll {α : Type} (rule : List Lexeme → Except (Grammar.Stop × List Lexeme) α) :
    EStateM LoadError Reader α := fun r =>
  match rule r.lexemes with
  | .ok a =>
    match r.ending with
    | .finished _ => .ok a (r.movedTo [])
    | .unreadable e => .error (.unreadable e) (r.movedTo []).exhausted
  | .error (.illFormed e, rest) => .error (.illFormed e) (r.movedTo rest)
  | .error (.stuck expected, []) => stopAtEnd expected (r.movedTo [])
  | .error (.stuck expected, l :: rest) =>
    .error (.unexpected ⟨l.token.text, expected, l.offset⟩)
      { r.movedTo (l :: rest) with lexemes := rest }

/-- Read clauses up to the end of the text. -/
def readClauses : EStateM LoadError Reader (List Clause) := readAll Grammar.readClauses

/-- Read one atom, with or without a period, up to the end of the text. -/
def readAtom : EStateM LoadError Reader Atom := readAll Grammar.readSoleAtom

/-- Read clauses up to the end of the text, and make a program of them. -/
def readProgram : EStateM LoadError Reader Program := do
  let cs ← readClauses
  match Program.ofClauses cs with
  | .ok p => pure p
  | .error e => throw (.illFormed e)

end Reader

/-- What a reading computation makes of a whole text. -/
def Reader.ofWhole {α : Type} (read : EStateM LoadError Reader α) (text : String) :
    Except LoadError α :=
  match read (Reader.ofText text) with
  | .ok a _ => .ok a
  | .error e _ => .error e

/-- The clauses that a text consists of. -/
def Clause.listOfText (text : String) : Except LoadError (List Clause) :=
  Reader.ofWhole Reader.readClauses text

/-- The atom that a text consists of. -/
def Atom.ofText (text : String) : Except LoadError Atom := Reader.ofWhole Reader.readAtom text

/-- The program that a text consists of. -/
def Program.ofText (text : String) : Except LoadError Program :=
  Reader.ofWhole Reader.readProgram text

end Datalog
