/-!
# Settings of evaluation

How the rules of a recursive stratum are evaluated again after the first round, how many rounds may
add something, and what is recorded on the way.
-/

namespace Datalog

/-- How rules are evaluated after the first round of a stratum. -/
inductive Strategy where
  /-- At least one body atom ranges over the tuples that the latest round has added. -/
  | semiNaive
  /-- Every body atom ranges over its whole relation. -/
  | naive
  deriving DecidableEq, Repr

/-- The settings of an evaluation. -/
structure Settings where
  /-- How rules are evaluated after the first round of a stratum. -/
  strategy : Strategy := .semiNaive
  /-- How many rounds of a stratum may add tuples; the last round, which adds none, does not count.
  `none` stands for no limit. -/
  maxRounds : Option Nat := some 10000
  /-- Record the stratum and the round in which each tuple is added. -/
  trackProvenance : Bool := false
  /-- Record which rules have been evaluated. -/
  collectTimings : Bool := false
  deriving DecidableEq, Repr

/-- Why settings are refused. -/
inductive InvalidSettings where
  /-- No round may add anything. -/
  | zeroRoundLimit
  deriving DecidableEq, Repr

/-- The report of a refusal. -/
def InvalidSettings.message : InvalidSettings → String
  | zeroRoundLimit => "max_rounds must be at least 1"

/-- A limit of zero rounds can never work; everything else can. -/
def Settings.validate (s : Settings) : Except InvalidSettings Unit :=
  if s.maxRounds = some 0 then .error .zeroRoundLimit else .ok ()

end Datalog
