import Datalog.Storage

/-!
# Unreliable storages

An `Unreliable` storage holds a database behind a connection that refuses calls according to a
plan.  It keeps the history of the calls made so far, and the plan decides from the history and the
kind of the next call whether that call is refused, and why.  Since the plan is an arbitrary
function, every pattern of failures in a run is that of some plan.

A question for a single tuple is answered by looking the tuple up, so it counts as a look-up.
-/

namespace Datalog

/-- The kinds of call. -/
inductive Operation where
  /-- To add an empty relation. -/
  | create
  /-- To add a tuple. -/
  | insert
  /-- To list a relation. -/
  | scan
  /-- To look up a pattern. -/
  | lookup
  deriving DecidableEq, Repr

/-- A database behind a connection that refuses calls according to a plan. -/
structure Unreliable where
  /-- The database held. -/
  database : Database
  /-- Whether a call is refused after the given history, and for which reason. -/
  plan : List Operation → Operation → Option String
  /-- The calls made so far, refused ones included, the latest first. -/
  history : List Operation := []

namespace Unreliable

/-- Make a call, unless the plan refuses it; either way it enters the history. -/
def attempt {α : Type} (op : Operation) (onDatabase : EStateM StorageError Database α) :
    EStateM StorageError Unreliable α := fun s =>
  let history := op :: s.history
  match s.plan s.history op with
  | some reason => .error (.backend reason) { s with history := history }
  | none =>
    match onDatabase s.database with
    | .ok a db => .ok a { s with database := db, history := history }
    | .error e db => .error e { s with database := db, history := history }

/-- A call that is made according to the plan is faithful. -/
theorem faithful_attempt {α : Type} (op : Operation)
    (onDatabase : EStateM StorageError Database α) :
    Storage.Faithful Unreliable.database (attempt op onDatabase) onDatabase := by
  intro s
  unfold attempt
  cases hplan : s.plan s.history op with
  | some reason => exact Or.inr ⟨reason, rfl⟩
  | none =>
    refine Or.inl ?_
    cases hdb : onDatabase s.database <;> rfl

instance : Storage Unreliable where
  contents := Unreliable.database
  create name arity := attempt .create (Database.createCall name arity)
  insert name t := attempt .insert (Database.insertCall name t)
  scan name := attempt .scan (Database.scanCall name)
  lookup name pattern := attempt .lookup (Database.lookupCall name pattern)
  create_faithful _ _ := faithful_attempt _ _
  insert_faithful _ _ := faithful_attempt _ _
  scan_faithful _ := faithful_attempt _ _
  lookup_faithful _ _ := faithful_attempt _ _

end Unreliable

end Datalog
