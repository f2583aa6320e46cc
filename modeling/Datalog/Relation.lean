import Datalog.Clause
import Datalog.Table

/-!
# Relations

A relation is a set of tuples of one arity.  It keeps the tuples in the order of their insertion,
and for every position and value the list of the tuples that have that value there.

* `Pattern`: a tuple with holes; `Pattern.fits` says which tuples it stands for.
* `Relation.insert`: add a tuple.
* `Relation.matching`: the tuples that fit a pattern, in order of insertion.
* `PositionIndex`: where each value occurs.

## How a pattern is looked up

Every bound position of a pattern offers a list of candidates: the tuples that have the bound value
there.  The shortest of these lists is checked against the whole pattern.  If some bound value does
not occur at its position at all, nothing can fit; if no position is bound, everything does.
-/

namespace Datalog

/-- A tuple with holes, which fit any value. -/
abbrev Pattern := List (Option Constant)

/-- Whether a tuple has the bound values of a pattern. -/
def Pattern.fits : Pattern → Tuple → Bool
  | some c :: bounds, v :: vs => c = v && fits bounds vs
  | none :: bounds, _ :: vs => fits bounds vs
  | _, _ => true

/-- For each position and each value that occurs there, the places of the tuples that have it,
ascending. -/
abbrev PositionIndex := List (Table Constant (List Nat))

namespace PositionIndex

/-- The index of a relation without tuples. -/
def empty (arity : Nat) : PositionIndex := List.replicate arity ∅

/-- Note the tuple at the given place. -/
def add (place : Nat) : PositionIndex → Tuple → PositionIndex
  | values :: index, v :: vs =>
    values.upsert v (fun places => arrive (places.getD []) place) :: add place index vs
  | index, _ => index

/-- The places of the tuples that have a value at a position, if there are any. -/
def places? (index : PositionIndex) (position : Nat) (value : Constant) : Option (List Nat) :=
  index[position]? >>= fun values => values.find? value

end PositionIndex

/-- A set of tuples of one arity. -/
structure Relation where
  /-- The number of components of every tuple. -/
  arity : Nat
  /-- The tuples, oldest first. -/
  tuples : List Tuple
  /-- Where each value occurs. -/
  index : PositionIndex
  deriving DecidableEq, Repr

namespace Relation

/-- The relation without tuples. -/
def empty (arity : Nat) : Relation := ⟨arity, [], PositionIndex.empty arity⟩

/-- Add a tuple, and say whether it is new. -/
def insert (r : Relation) (t : Tuple) : Bool × Relation :=
  if t ∈ r.tuples then (false, r)
  else (true, { r with tuples := r.tuples ++ [t], index := r.index.add r.tuples.length t })

/-- Whether the relation holds a tuple. -/
def contains (r : Relation) (t : Tuple) : Bool := t ∈ r.tuples

/-- What the bound positions of a pattern say about the tuples that may fit it. -/
inductive Candidates where
  /-- No position is bound. -/
  | all
  /-- Only the tuples at these places may fit. -/
  | among (places : List Nat)
  /-- Some bound value does not occur. -/
  | nowhere
  deriving DecidableEq, Repr

/-- Take a further list of places into account: the shorter list is kept, the earlier one of two
equally long. -/
def Candidates.narrow (places : List Nat) : Candidates → Candidates
  | all => among places
  | among best => if places.length < best.length then among places else among best
  | nowhere => nowhere

/-- The candidates for the part of a pattern from the given position on. -/
def candidatesFrom (index : PositionIndex) (position : Nat) (found : Candidates) :
    Pattern → Candidates
  | [] => found
  | none :: bounds => candidatesFrom index (position + 1) found bounds
  | some v :: bounds =>
    match index.places? position v with
    | none => .nowhere
    | some places => candidatesFrom index (position + 1) (found.narrow places) bounds

/-- The candidates for a pattern. -/
def candidates (r : Relation) (pattern : Pattern) : Candidates :=
  candidatesFrom r.index 0 .all pattern

/-- The tuples that fit a pattern, in order of insertion. -/
def matching (r : Relation) (pattern : Pattern) : List Tuple :=
  match r.candidates pattern with
  | .all => r.tuples
  | .nowhere => []
  | .among places => (places.filterMap fun i => r.tuples[i]?).filter pattern.fits

end Relation

end Datalog
