import Datalog.Database

/-!
# Storages

Evaluation works against any `Storage`: a value that holds a database and is spoken to by calls.
A call may be *refused*, for reasons of the storage's own, and a refused call leaves the contents as
they are; a call that is not refused does exactly what it does on a plain database.  A storage may
change in other respects with every call, whether it is refused or not, for instance by counting
the calls.

* `Storage`: the class of storages, with the law that ties their calls to a database.
* A `Database` is the storage that refuses nothing.

## Why the law is part of the class

All that evaluation leaves in a storage is described through `Storage.contents`.  Since every
storage keeps the law, a statement about evaluation is made once for all storages, and the absence
of refusals is a property of the storage at hand rather than a second version of the statement.
-/

namespace Datalog

namespace Storage

/-- What remains of the outcome of a call when only a part of the state is looked at. -/
def viewed {ε σ τ α : Type} (view : σ → τ) : EStateM.Result ε σ α → EStateM.Result ε τ α
  | .ok a s => .ok a (view s)
  | .error e s => .error e (view s)

/-- A call to a storage is faithful to a call to a database if it does the same to the contents and
has the same outcome, or is refused and leaves the contents as they are. -/
def Faithful {σ α : Type} (contents : σ → Database) (call : EStateM StorageError σ α)
    (onDatabase : EStateM StorageError Database α) : Prop :=
  ∀ s, viewed contents (call s) = onDatabase (contents s) ∨
    ∃ reason, viewed contents (call s) = .error (.backend reason) (contents s)

/-- Ask for a single tuple by looking it up: a pattern without holes fits one tuple at most. -/
def containsByLookup {σ : Type}
    (lookup : Predicate → Pattern → EStateM StorageError σ (List Tuple))
    (name : Predicate) (t : Tuple) : EStateM StorageError σ Bool := do
  let found ← lookup name (t.map some)
  pure (!found.isEmpty)

end Storage

namespace Database

/-- A call that may change the database. -/
def write {α : Type} (f : Database → Except StorageError (α × Database)) :
    EStateM StorageError Database α := fun db =>
  match f db with
  | .ok (a, db') => .ok a db'
  | .error e => .error e db

/-- A call that only looks. -/
def read {α : Type} (f : Database → Except StorageError α) : EStateM StorageError Database α :=
  fun db =>
    match f db with
    | .ok a => .ok a db
    | .error e => .error e db

/-- The call that adds an empty relation. -/
def createCall (name : Predicate) (arity : Nat) : EStateM StorageError Database Unit :=
  write fun db => (db.create name arity).map fun db' => ((), db')

/-- The call that adds a tuple. -/
def insertCall (name : Predicate) (t : Tuple) : EStateM StorageError Database Bool :=
  write fun db => db.insert name t

/-- The call for all tuples of a relation. -/
def scanCall (name : Predicate) : EStateM StorageError Database (List Tuple) :=
  read fun db => db.scan name

/-- The call for the tuples that fit a pattern. -/
def lookupCall (name : Predicate) (pattern : Pattern) :
    EStateM StorageError Database (List Tuple) :=
  read fun db => db.lookup name pattern

/-- The call that asks for a single tuple. -/
def containsCall (name : Predicate) (t : Tuple) : EStateM StorageError Database Bool :=
  read fun db => db.contains name t

end Database

/-- A value that holds a database and answers calls, each of which it may refuse. -/
class Storage (σ : Type) where
  /-- The database held; to look at it is not a call. -/
  contents : σ → Database
  /-- Add an empty relation, or nothing if there is one of this name and arity. -/
  create : Predicate → Nat → EStateM StorageError σ Unit
  /-- Add a tuple to a relation, and say whether it is new. -/
  insert : Predicate → Tuple → EStateM StorageError σ Bool
  /-- All tuples of a relation, in order of insertion. -/
  scan : Predicate → EStateM StorageError σ (List Tuple)
  /-- The tuples of a relation that fit a pattern, in order of insertion. -/
  lookup : Predicate → Pattern → EStateM StorageError σ (List Tuple)
  /-- Whether a relation holds a tuple; unless the storage knows better, by looking the tuple
  up. -/
  contains : Predicate → Tuple → EStateM StorageError σ Bool := Storage.containsByLookup lookup
  /-- A call that adds a relation is faithful. -/
  create_faithful : ∀ name arity,
    Storage.Faithful contents (create name arity) (Database.createCall name arity)
  /-- A call that adds a tuple is faithful. -/
  insert_faithful : ∀ name t,
    Storage.Faithful contents (insert name t) (Database.insertCall name t)
  /-- A call for all tuples of a relation is faithful. -/
  scan_faithful : ∀ name, Storage.Faithful contents (scan name) (Database.scanCall name)
  /-- A call for the tuples that fit a pattern is faithful. -/
  lookup_faithful : ∀ name pattern,
    Storage.Faithful contents (lookup name pattern) (Database.lookupCall name pattern)

theorem Storage.viewed_id {ε σ α : Type} (r : EStateM.Result ε σ α) :
    Storage.viewed (fun s => s) r = r := by
  cases r <;> rfl

/-- A database refuses nothing. -/
instance : Storage Database where
  contents db := db
  create := Database.createCall
  insert := Database.insertCall
  scan := Database.scanCall
  lookup := Database.lookupCall
  contains := Database.containsCall
  create_faithful _ _ _ := Or.inl (Storage.viewed_id _)
  insert_faithful _ _ _ := Or.inl (Storage.viewed_id _)
  scan_faithful _ _ := Or.inl (Storage.viewed_id _)
  lookup_faithful _ _ _ := Or.inl (Storage.viewed_id _)

end Datalog
