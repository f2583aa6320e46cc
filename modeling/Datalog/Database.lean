import Datalog.Relation
import Datalog.Total

/-!
# Databases

A database holds relations under names, in the order of their creation.  Relations are only ever
added, and they only ever grow.

* `Database.create`, `Database.insert`: add a relation, add a tuple.
* `Database.scan`, `Database.lookup`, `Database.contains`: what a relation holds.
* `StorageError`: why a call fails.

A call that fails gives no new database, so there is nothing that it could have changed.
-/

namespace Datalog

/-- Why a call to a storage fails. -/
inductive StorageError where
  /-- There is no relation of this name. -/
  | unknownRelation (name : Predicate)
  /-- The relation has another arity. -/
  | arityMismatch (name : Predicate) (expected found : Nat)
  /-- The storage refuses the call, for reasons of its own. -/
  | backend (reason : String)
  deriving DecidableEq, Repr

/-- The report of a failed call. -/
def StorageError.message : StorageError → String
  | unknownRelation name => "unknown relation `" ++ name ++ "`"
  | arityMismatch name expected found =>
    "relation `" ++ name ++ "` has arity " ++ toString expected ++ ", got " ++ toString found
  | backend reason => reason

/-- Relations under names, in the order of their creation. -/
structure Database where
  /-- The relations, oldest first. -/
  relations : Table Predicate Relation := ∅
  deriving DecidableEq, Repr

namespace Database

instance : EmptyCollection Database := ⟨⟨∅⟩⟩

/-- The names of the relations, in the order of their creation. -/
def names (db : Database) : List Predicate := db.relations.keys

/-- The arity of a relation. -/
def arity? (db : Database) (name : Predicate) : Option Nat :=
  (db.relations.find? name).map Relation.arity

/-- The tuples of a relation, in order of insertion; none if there is no such relation. -/
def tuples (db : Database) (name : Predicate) : List Tuple :=
  match db.relations.find? name with
  | none => []
  | some r => r.tuples

/-- The number of tuples in a relation; zero if there is no such relation. -/
def count (db : Database) (name : Predicate) : Nat :=
  match db.relations.find? name with
  | none => 0
  | some r => r.tuples.length

/-- The number of tuples in all relations. -/
def totalTuples (db : Database) : Nat := total (db.relations.values.map fun r => r.tuples.length)

/-- The values that the relations hold, each once, in the order in which a listing of the database
first shows them. -/
def constants (db : Database) : List Constant :=
  (db.relations.values.flatMap fun r => r.tuples.flatten).eraseDups

/-- The relation of a name, provided it has the given arity. -/
def relation (db : Database) (name : Predicate) (arity : Nat) : Except StorageError Relation :=
  match db.relations.find? name with
  | none => .error (.unknownRelation name)
  | some r => if r.arity = arity then .ok r else .error (.arityMismatch name r.arity arity)

/-- Add an empty relation, or nothing if there is one of this name and arity. -/
def create (db : Database) (name : Predicate) (arity : Nat) : Except StorageError Database :=
  match db.relations.find? name with
  | none => .ok ⟨db.relations.insertNew name (Relation.empty arity)⟩
  | some r => if r.arity = arity then .ok db else .error (.arityMismatch name r.arity arity)

/-- Add a tuple to a relation, and say whether it is new. -/
def insert (db : Database) (name : Predicate) (t : Tuple) :
    Except StorageError (Bool × Database) := do
  let r ← db.relation name t.length
  let (isNew, r') := r.insert t
  pure (isNew, ⟨db.relations.upsert name fun _ => r'⟩)

/-- All tuples of a relation, in order of insertion. -/
def scan (db : Database) (name : Predicate) : Except StorageError (List Tuple) :=
  match db.relations.find? name with
  | none => .error (.unknownRelation name)
  | some r => .ok r.tuples

/-- The tuples of a relation that fit a pattern, in order of insertion. -/
def lookup (db : Database) (name : Predicate) (pattern : Pattern) :
    Except StorageError (List Tuple) := do
  let r ← db.relation name pattern.length
  pure (r.matching pattern)

/-- Whether a relation holds a tuple. -/
def contains (db : Database) (name : Predicate) (t : Tuple) : Except StorageError Bool := do
  let r ← db.relation name t.length
  pure (r.contains t)

end Database

end Datalog
