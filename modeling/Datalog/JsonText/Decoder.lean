import Datalog.JsonText.Lexical

/-!
# Decoding JSON texts

A `Decoder` reads a value of a known shape from the beginning of a text.  The shapes are those of
plain data: strings, booleans, counts, lists, records and variants.

* A record is an object with the record's fields as members, in any order, or an array of the
  fields in their fixed order.  Members of other names are skipped.
* A variant is an object with a single member, whose name says which variant it is; a variant that
  carries nothing may also be given by its name alone.

## Which fault is reported

Decoding knows at every place what it expects there, so a value of the wrong shape is noticed when
it begins, unless it is a word: then the word is read first, and a fault in it takes precedence.
What comes later in the text does not matter any more.

The name of a member is no value that might have the wrong shape.  JSON admits only strings there,
so whatever else stands in its place makes the text malformed, and is not read any further.
-/

namespace Datalog
namespace JsonText

/-- What reads a value from the beginning of a text, and leaves what follows. -/
abbrev Decoder := StateT (List Char) (Except Fault)

/-- Stop with a fault. -/
def fail {α : Type} (e : Fault) : Decoder α := fun _ => .error e

/-- Apply a reader of words. -/
def word {α : Type} (read : List Char → Except Fault (α × List Char)) : Decoder α := read

/-- Apply a reader that gives no value. -/
def pass (read : List Char → Except Fault (List Char)) : Decoder Unit := fun cs =>
  match read cs with
  | .ok rest => .ok ((), rest)
  | .error e => .error e

/-- The next character that is no blank, without reading it; `none` at the end. -/
def peek : Decoder (Option Char) := fun cs =>
  let cs := skipBlanks cs
  .ok (cs.head?, cs)

/-- Read a single character. -/
def advance : Decoder Unit := fun cs => .ok ((), cs.drop 1)

/-- The first character of the value that comes next. -/
def valueStart : Decoder Char := do
  match ← peek with
  | none => fail .truncated
  | some c => pure c

/-- Whether a value that starts with the given character is a number. -/
def startsNumber (c : Char) : Bool := c = '-' || c.isDigit

/-- Report that a value has the wrong shape.  If it is a word, the word is read first. -/
def wrongShape {α : Type} : Decoder α := do
  match ← valueStart with
  | 'n' => pass (readWord "null".toList)
  | 't' => pass (readWord "true".toList)
  | 'f' => pass (readWord "false".toList)
  | '"' =>
    advance
    let _ ← word readString
  | '[' => pure ()
  | '\x7b' => pure ()
  | c =>
    if startsNumber c then
      let _ ← word readNumber
    else fail .malformed
  fail .mismatched

/-! ## Plain values -/

/-- A string. -/
def string : Decoder String := do
  match ← valueStart with
  | '"' =>
    advance
    let cs ← word readString
    pure (String.ofList cs)
  | _ => wrongShape

/-- A truth value. -/
def boolean : Decoder Bool := do
  match ← valueStart with
  | 't' =>
    pass (readWord "true".toList)
    pure true
  | 'f' =>
    pass (readWord "false".toList)
    pure false
  | _ => wrongShape

/-- The word `null`. -/
def null : Decoder Unit := do
  match ← valueStart with
  | 'n' => pass (readWord "null".toList)
  | _ => wrongShape

/-- A count. -/
def count : Decoder Nat := do
  let c ← valueStart
  if startsNumber c then
    match ← word readNumber with
    | some n => pure n
    | none => fail .mismatched
  else wrongShape

/-- The word `null`, or a value. -/
def optional {α : Type} (value : Decoder α) : Decoder (Option α) := do
  match ← peek with
  | some 'n' =>
    pass (readWord "null".toList)
    pure none
  | _ => some <$> value

/-! ## Values that do not matter -/

/-- The colon behind the name of a member. -/
def colon : Decoder Unit := do
  match ← peek with
  | none => fail .truncated
  | some ':' => advance
  | some _ => fail .malformed

mutual

/-- Skip a value of any shape.  Every call to one of these three functions that is made in the
course of another one has a character less before it or comes right behind it, so twice the length
of the text is fuel enough. -/
def skipValue : Nat → Decoder Unit
  | 0 => fail .truncated
  | fuel + 1 => do
    match ← valueStart with
    | 'n' => pass (readWord "null".toList)
    | 't' => pass (readWord "true".toList)
    | 'f' => pass (readWord "false".toList)
    | '"' =>
      advance
      pass skipString
    | '[' =>
      advance
      match ← peek with
      | some ']' => advance
      | _ => skipElements fuel
    | '\x7b' =>
      advance
      match ← peek with
      | some '\x7d' => advance
      | _ => skipMembers fuel
    | c => if startsNumber c then pass skipNumber else fail .malformed

/-- Skip the elements of an array, at least one, and the bracket behind them. -/
def skipElements : Nat → Decoder Unit
  | 0 => fail .truncated
  | fuel + 1 => do
    skipValue fuel
    match ← peek with
    | none => fail .truncated
    | some ',' =>
      advance
      skipElements fuel
    | some ']' => advance
    | some _ => fail .malformed

/-- Skip the members of an object, at least one, and the brace behind them. -/
def skipMembers : Nat → Decoder Unit
  | 0 => fail .truncated
  | fuel + 1 => do
    match ← peek with
    | none => fail .truncated
    | some '"' =>
      advance
      pass skipString
      colon
      skipValue fuel
      match ← peek with
      | none => fail .truncated
      | some ',' =>
        advance
        skipMembers fuel
      | some '\x7d' => advance
      | some _ => fail .malformed
    | some _ => fail .malformed

end

/-- Skip a value of any shape. -/
def skipAny : Decoder Unit := do
  let cs ← get
  skipValue (2 * cs.length + 2)

/-! ## Arrays -/

/-- Whether the array being read has a further element, and if so, go to where it begins.  The flag
says whether it would be the first one. -/
def nextElement (first : Bool) : Decoder Bool := do
  match ← peek with
  | none => fail .truncated
  | some ']' => pure false
  | some c =>
    if first then pure true
    else if c = ',' then do
      advance
      match ← peek with
      | none => fail .truncated
      | some ']' => fail .malformed
      | some _ => pure true
    else fail .malformed

/-- The bracket behind the last element. -/
def endArray : Decoder Unit := do
  match ← peek with
  | none => fail .truncated
  | some ']' => advance
  | some _ => fail .malformed

/-- The elements of an array from the current place on.  Each takes a character at least, so the
length of the text is fuel enough. -/
def elements {α : Type} (element : Decoder α) : Nat → Bool → Decoder (List α)
  | 0, _ => fail .truncated
  | fuel + 1, first => do
    if ← nextElement first then
      let a ← element
      let as ← elements element fuel false
      pure (a :: as)
    else pure []

/-- An array of values of one shape. -/
def array {α : Type} (element : Decoder α) : Decoder (List α) := do
  match ← valueStart with
  | '[' =>
    advance
    let cs ← get
    let as ← elements element (cs.length + 1) true
    endArray
    pure as
  | _ => wrongShape

/-! ## Records -/

/-- The name of a member. -/
def memberName : Decoder String := do
  match ← valueStart with
  | '"' =>
    advance
    let cs ← word readString
    pure (String.ofList cs)
  | _ => fail .malformed

/-- The name of the next member of the object being read, if there is one.  The flag says whether
it would be the first one. -/
def nextMember (first : Bool) : Decoder (Option String) := do
  match ← peek with
  | none => fail .truncated
  | some '\x7d' =>
    advance
    pure none
  | some c =>
    if !first then
      if c = ',' then advance else fail .malformed
    some <$> memberName

/-- The members of an object from the current place on.  `member` gets the value built so far and
the name of a member, and reads on from behind the name. -/
def members {β : Type} (member : β → String → Decoder β) : Nat → Bool → β → Decoder β
  | 0, _, _ => fail .truncated
  | fuel + 1, first, b => do
    match ← nextMember first with
    | none => pure b
    | some name =>
      let b ← member b name
      members member fuel false b

/-- The value of a member that has not been given before. -/
def newMember {α β : Type} (old : Option α) (value : Decoder α) (set : α → β) : Decoder β :=
  match old with
  | some _ => fail .mismatched
  | none => do
    colon
    let a ← value
    pure (set a)

/-- A member that does not matter. -/
def otherMember {β : Type} (b : β) : Decoder β := do
  colon
  skipAny
  pure b

/-- A record, given as an object or as an array. -/
def record {β : Type} (member : β → String → Decoder β) (nothing : β)
    (inOrder : Decoder β) : Decoder β := do
  match ← valueStart with
  | '[' =>
    advance
    let b ← inOrder
    endArray
    pure b
  | '\x7b' =>
    advance
    let cs ← get
    members member (cs.length + 1) true nothing
  | _ => wrongShape

/-- The value of a member that must be given. -/
def required {α : Type} : Option α → Decoder α
  | some a => pure a
  | none => fail .mismatched

/-- An element of an array that must be given.  The flag says whether it is the first one. -/
def requiredElement {α : Type} (first : Bool) (element : Decoder α) : Decoder α := do
  if ← nextElement first then element else fail .mismatched

/-! ## Variants -/

/-- The brace behind the only member of an object. -/
def endVariant : Decoder Unit := do
  match ← peek with
  | none => fail .truncated
  | some '\x7d' => advance
  | some _ => fail .malformed

/-- The variant of a name, with what it carries, as an object of one member. -/
def variantObject {α : Type} (payload? : String → Option (Decoder α)) : Decoder α := do
  advance
  let name ← memberName
  match payload? name with
  | none => fail .mismatched
  | some payload =>
    colon
    let a ← payload
    endVariant
    pure a

/-- One of several variants that carry something. -/
def variant {α : Type} (payload? : String → Option (Decoder α)) : Decoder α := do
  match ← valueStart with
  | '"' =>
    let _ ← string
    fail .mismatched
  | '\x7b' => variantObject payload?
  | _ => fail .malformed

/-- One of several variants that carry nothing. -/
def plainVariant {α : Type} (value? : String → Option α) : Decoder α := do
  match ← valueStart with
  | '"' =>
    let name ← string
    required (value? name)
  | '\x7b' =>
    variantObject fun name => (value? name).map fun a => do
      null
      pure a
  | _ => fail .malformed

/-! ## Whole texts -/

/-- Decode a text that consists of a single value. -/
def decode {α : Type} (value : Decoder α) (text : String) : Except Fault α := do
  let (a, rest) ← value text.toList
  if skipBlanks rest = [] then pure a else .error .malformed

end JsonText
end Datalog
