import Datalog.Clause
import Datalog.JsonText.Decoder
import Datalog.JsonText.Writer

/-!
# Clauses as JSON texts

A term is `{"Constant":c}` or `{"Variable":x}`, an atom has the fields `predicate` and `terms`, a
rule has the fields `head` and `body`, and a clause is `{"Fact":atom}` or `{"Rule":rule}`.  Names
may be any strings.
-/

namespace Datalog

open JsonText

namespace Term

/-- A term as a JSON text. -/
def write : Term → List Char
  | const c => writeObject [("Constant", writeString c)]
  | var x => writeObject [("Variable", writeString x)]

/-- What the variants of a term carry. -/
def payload? : String → Option (Decoder Term)
  | "Constant" => some (const <$> string)
  | "Variable" => some (var <$> string)
  | _ => none

/-- Read a term. -/
def decoder : Decoder Term := variant payload?

end Term

namespace Atom

/-- An atom as a JSON text. -/
def write (a : Atom) : List Char :=
  writeObject [("predicate", writeString a.predicate),
    ("terms", writeArray (a.terms.map Term.write))]

/-- The fields of an atom met so far. -/
structure Fields where
  /-- The value of `predicate`, once it has been met. -/
  predicate : Option String := none
  /-- The value of `terms`, once it has been met. -/
  terms : Option (List Term) := none

/-- A member of an atom. -/
def member (f : Fields) (name : String) : Decoder Fields :=
  match name with
  | "predicate" => newMember f.predicate string fun p => { f with predicate := some p }
  | "terms" => newMember f.terms (array Term.decoder) fun ts => { f with terms := some ts }
  | _ => otherMember f

/-- The fields of an atom as elements of an array. -/
def fieldsInOrder : Decoder Fields := do
  let p ← requiredElement true string
  let ts ← requiredElement false (array Term.decoder)
  pure ⟨some p, some ts⟩

/-- Read an atom. -/
def decoder : Decoder Atom := do
  let f ← record member {} fieldsInOrder
  let p ← required f.predicate
  let ts ← required f.terms
  pure ⟨p, ts⟩

end Atom

namespace Rule

/-- A rule as a JSON text. -/
def write (r : Rule) : List Char :=
  writeObject [("head", r.head.write), ("body", writeArray (r.body.map Atom.write))]

/-- The fields of a rule met so far. -/
structure Fields where
  /-- The value of `head`, once it has been met. -/
  head : Option Atom := none
  /-- The value of `body`, once it has been met. -/
  body : Option (List Atom) := none

/-- A member of a rule. -/
def member (f : Fields) (name : String) : Decoder Fields :=
  match name with
  | "head" => newMember f.head Atom.decoder fun a => { f with head := some a }
  | "body" => newMember f.body (array Atom.decoder) fun as => { f with body := some as }
  | _ => otherMember f

/-- The fields of a rule as elements of an array. -/
def fieldsInOrder : Decoder Fields := do
  let a ← requiredElement true Atom.decoder
  let as ← requiredElement false (array Atom.decoder)
  pure ⟨some a, some as⟩

/-- Read a rule. -/
def decoder : Decoder Rule := do
  let f ← record member {} fieldsInOrder
  let a ← required f.head
  let as ← required f.body
  pure ⟨a, as⟩

end Rule

namespace Clause

/-- A clause as a JSON text. -/
def write : Clause → List Char
  | fact a => writeObject [("Fact", a.write)]
  | rule r => writeObject [("Rule", r.write)]

/-- What the variants of a clause carry. -/
def payload? : String → Option (Decoder Clause)
  | "Fact" => some (fact <$> Atom.decoder)
  | "Rule" => some (rule <$> Rule.decoder)
  | _ => none

/-- Read a clause. -/
def decoder : Decoder Clause := variant payload?

end Clause

end Datalog
