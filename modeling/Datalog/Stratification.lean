import Datalog.Dependency

/-!
# Strata

A *stratum* is a group of mutually dependent predicates with the rules that define them.  The
strata of a program come dependencies first, so when they are evaluated one after the other, every
predicate that a rule reads either belongs to the rule's own stratum or is complete.

* `Stratum`: predicates, rules, and whether the predicates depend on themselves.
* `Stratification.push`: one more stratum, and its place entered under each of its predicates.
* `Stratification.ofProgram`: the strata of a program, added one after the other.
* `Stratification.stratumOf?`: the place of the stratum of a predicate, looked up in the table.
-/

namespace Datalog

/-- A group of mutually dependent predicates and the rules that define them. -/
structure Stratum where
  /-- The predicates, in order of first occurrence in the program. -/
  predicates : List Predicate
  /-- The rules whose head predicate is among them, in program order. -/
  rules : List Rule
  /-- Whether the predicates depend on themselves, directly or not. -/
  recursive : Bool
  deriving DecidableEq, Repr

namespace Stratum

/-- Whether an atom reads a predicate of the stratum. -/
def isLocal (s : Stratum) (a : Atom) : Bool := a.predicate ∈ s.predicates

/-- Whether some body atom of a rule reads a predicate of the stratum. -/
def isRecursiveRule (s : Stratum) (r : Rule) : Bool := r.body.any s.isLocal

/-- The stratum of a group of predicates. -/
def ofGroup (p : Program) (d : Dependency) (group : List (Fin d.predicates.length)) : Stratum :=
  let predicates := group.map d.predicates.get
  ⟨predicates, p.rules.filter fun r => r.head.predicate ∈ predicates, d.isRecursive group⟩

end Stratum

/-- The strata of a program, dependencies first, and a table that tells where to find them. -/
structure Stratification where
  /-- The strata, in the order in which they are evaluated. -/
  strata : List Stratum := []
  /-- For each predicate, how many strata stood in front when its own one was added. -/
  places : Table Predicate Nat := ∅
  deriving DecidableEq, Repr

namespace Stratification

/-- Add a stratum behind the others, and enter its place under each of its predicates. -/
def push (s : Stratification) (stratum : Stratum) : Stratification where
  strata := s.strata ++ [stratum]
  places := stratum.predicates.foldl
    (fun places name => places.upsert name fun _ => s.strata.length) s.places

/-- The strata of a program. -/
def ofProgram (p : Program) : Stratification :=
  let d := Dependency.ofProgram p
  d.groups.foldl (fun s group => s.push (Stratum.ofGroup p d group)) {}

/-- The place of the stratum that holds a predicate, as the table has it. -/
def stratumOf? (s : Stratification) (name : Predicate) : Option Nat := s.places.find? name

end Stratification

end Datalog
