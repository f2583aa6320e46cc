import Datalog.Clause
import Datalog.Table
import Datalog.Total

/-!
# Reports

What an evaluation tells about itself: for each stratum the rounds and the tuples they added, and,
as far as the settings ask for it, which rules were evaluated and when each tuple was derived.
-/

namespace Datalog

/-- When a tuple was added. -/
structure Derivation where
  /-- The place of the stratum in the order of evaluation. -/
  stratum : Nat
  /-- The round within the stratum, counted from 1. -/
  round : Nat
  deriving DecidableEq, Repr

/-- What happened while one stratum was evaluated. -/
structure StratumReport where
  /-- The predicates of the stratum. -/
  predicates : List Predicate
  /-- Whether the stratum is recursive. -/
  recursive : Bool
  /-- The number of rounds, the last one included, which may have added nothing. -/
  rounds : Nat := 0
  /-- How many tuples each round added. -/
  newPerRound : List Nat := []
  /-- How many tuples were fetched while bodies were joined. -/
  tuplesScanned : Nat := 0
  deriving DecidableEq, Repr

/-- What happened in an evaluation. -/
structure Report where
  /-- One report for each stratum, in the order of evaluation. -/
  strata : List StratumReport := []
  /-- The texts of the rules that were evaluated, if they are recorded, in the order of their first
  evaluation. -/
  timedRules : List String := []
  /-- When each tuple was added, if that is recorded. -/
  derivations : Table (Predicate × Tuple) Derivation := ∅
  deriving DecidableEq, Repr

/-- The number of tuples that a stratum added. -/
def StratumReport.derived (r : StratumReport) : Nat := total r.newPerRound

namespace Report

/-- The number of tuples that an evaluation added. -/
def derived (r : Report) : Nat := total (r.strata.map StratumReport.derived)

/-- The number of rounds over all strata. -/
def rounds (r : Report) : Nat := total (r.strata.map StratumReport.rounds)

/-- The report of the stratum that holds a predicate. -/
def stratumFor? (r : Report) (name : Predicate) : Option StratumReport :=
  r.strata.find? fun s => name ∈ s.predicates

/-- When a tuple was added, if the evaluation added it and records were kept. -/
def derivation? (r : Report) (name : Predicate) (t : Tuple) : Option Derivation :=
  r.derivations.find? (name, t)

end Report

end Datalog
