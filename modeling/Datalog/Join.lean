import Datalog.Storage
import Datalog.Substitution

/-!
# Joins

A rule derives an instance of its head for every substitution that turns each body atom into a
tuple of the atom's *range*.  The range is the relation in the storage, or, for at most one atom,
only the tuples that the latest round of evaluation has added.

* `Range`, `Range.find`: where an atom is looked up.
* `extendAll`: extend substitutions by the matches of one atom.
* `join`: extend substitutions by the matches of several atoms, from left to right.
* `Rule.derive`: the instances of the head that the ranges of the body support.

Beside their result, these functions count the tuples they fetch.  The order of the result follows
the order of the substitutions and, for each of them, the order of the tuples fetched.
-/

namespace Datalog

/-- The tuples that a body atom ranges over. -/
inductive Range where
  /-- The relation in the storage. -/
  | stored
  /-- The tuples that the latest round has added. -/
  | recent (added : Database)
  deriving DecidableEq, Repr

variable {σ : Type} [Storage σ]

/-- The tuples of a range that fit a pattern.  The latest round need not have added to every
relation. -/
def Range.find (range : Range) (name : Predicate) (pattern : Pattern) :
    EStateM StorageError σ (List Tuple) :=
  match range with
  | .stored => Storage.lookup name pattern
  | .recent added =>
    match added.arity? name with
    | none => pure []
    | some _ =>
      match added.lookup name pattern with
      | .ok found => pure found
      | .error e => throw e

/-- Extend substitutions by the matches of an atom, and count the tuples fetched. -/
def extendAll (range : Range) (a : Atom) :
    List Substitution → EStateM StorageError σ (List Substitution × Nat)
  | [] => pure ([], 0)
  | s :: ss => do
    let found ← range.find a.predicate (a.pattern s)
    let (extended, fetched) ← extendAll range a ss
    pure (found.filterMap (fun t => a.match? t s) ++ extended, found.length + fetched)

/-- Extend substitutions by the matches of atoms with their ranges, from left to right, and count
the tuples fetched. -/
def join : List (Range × Atom) → List Substitution →
    EStateM StorageError σ (List Substitution × Nat)
  | [], ss => pure (ss, 0)
  | (range, a) :: rest, ss => do
    let (extended, fetched) ← extendAll range a ss
    let (joined, more) ← join rest extended
    pure (joined, fetched + more)

namespace Rule

/-- The body with every atom ranging over the storage. -/
def overStored (r : Rule) : List (Range × Atom) := r.body.map fun a => (.stored, a)

/-- The body with the atom at one position ranging over the tuples just added, and every other atom
over the storage. -/
def overRecent (r : Rule) (position : Nat) (added : Database) : List (Range × Atom) :=
  r.body.mapIdx fun i a => (if i = position then .recent added else .stored, a)

/-- The instances of the head that the given ranges of the body support, each once, and the number
of tuples fetched. -/
def derive (r : Rule) (body : List (Range × Atom)) : EStateM StorageError σ (List Tuple × Nat) := do
  let (substitutions, fetched) ← join body [∅]
  pure ((substitutions.filterMap r.head.instance?).eraseDups, fetched)

end Rule

end Datalog
