import Datalog.Join
import Datalog.Report
import Datalog.Settings
import Datalog.Stratification

/-!
# Evaluation to the fixpoint

The strata of a program are evaluated one after the other, each in rounds.  A round joins the rules
of the stratum against what the storage holds, collects the tuples they derive, and then adds the
collected tuples to the storage.  The first round joins every rule with its whole relations.  The
later rounds join only the rules that read the stratum itself, and a stratum that does not read
itself has only one round.

* `deriveAgain`: a rule in a later round, with one of its local atoms at a time ranging over the
  tuples of the latest round.
* `harvest`, `commit`: the two halves of a round.
* `Stratum.evaluate`, `evaluate`: all rounds of a stratum, and all strata.
* `materialize`: create the relations of a program and insert its facts.

## Why one atom at a time is enough

A derivation that was not possible a round ago uses some tuple of the latest round for some local
atom.  With that atom ranging over the new tuples and all others over the whole relations, the join
finds the derivation.  So nothing is lost when the joins over old tuples alone are not repeated.

## Why evaluation ends

A round that adds nothing is the last.  Every other round adds a tuple of constants that the
storage or the rules mention, and there are only `Stratum.capacity` tuples of such constants over
the predicates that the rules define.  Hence an evaluation without a limit is one whose limit is
that number: it cannot be exceeded.
-/

namespace Datalog

/-- Why an evaluation ends early. -/
inductive EvaluationError where
  /-- More rounds of a stratum added tuples than the limit allows. -/
  | roundLimitExceeded (stratum limit : Nat)
  /-- The storage failed. -/
  | storage (e : StorageError)
  deriving DecidableEq, Repr

/-- The report of a failed evaluation. -/
def EvaluationError.message : EvaluationError → String
  | roundLimitExceeded stratum limit =>
    "stratum " ++ toString stratum ++ " did not reach a fixpoint within " ++ toString limit ++
      " rounds"
  | storage e => "relation store failure: " ++ e.message

/-- What the joins of a round have collected. -/
structure Harvest where
  /-- The tuples derived for each predicate, each once, in the order of their first derivation. -/
  candidates : Table Predicate (List Tuple) := ∅
  /-- The number of tuples fetched. -/
  fetched : Nat := 0
  /-- The texts of the rules evaluated, each once. -/
  evaluated : List String := []
  deriving DecidableEq, Repr

/-- Take the result of evaluating a rule into account. -/
def Harvest.add (h : Harvest) (r : Rule) (derived : List Tuple) (fetched : Nat) : Harvest :=
  { candidates :=
      if derived = [] then h.candidates
      else h.candidates.upsert r.head.predicate fun ts => (ts.getD [] ++ derived).eraseDups
    fetched := h.fetched + fetched
    evaluated := arrive h.evaluated r.text }

/-- The positions of the body atoms of a rule that read the stratum itself. -/
def Stratum.localPositions (s : Stratum) (r : Rule) : List Nat :=
  (List.range r.body.length).filter fun i => r.body[i]?.any s.isLocal

/-- The constants of a rule's head. -/
def Rule.headConstants (r : Rule) : List Constant := r.head.terms.filterMap Term.const?

namespace Stratum

/-- The predicates that the rules of a stratum define, with their arities. -/
def definedRelations (s : Stratum) : List (Predicate × Nat) :=
  (s.rules.map fun r => (r.head.predicate, r.head.arity)).eraseDups

/-- The constants that a database and the heads of the rules mention. -/
def domain (s : Stratum) (db : Database) : List Constant :=
  (db.constants ++ s.rules.flatMap Rule.headConstants).eraseDups

/-- The number of tuples of such constants over the predicates that the rules define. -/
def capacity (s : Stratum) (db : Database) : Nat :=
  total (s.definedRelations.map fun p => Nat.pow (s.domain db).length p.2)

/-- How many rounds of a stratum may add tuples. -/
def allowance (s : Stratum) (settings : Settings) (db : Database) : Nat :=
  settings.maxRounds.getD (s.capacity db)

end Stratum

section Rounds

variable {σ : Type} [Storage σ]

/-- The instances of a rule's head with one body atom ranging over the tuples just added, for each
of the given positions in turn. -/
def deriveAgain (r : Rule) (added : Database) :
    List Nat → EStateM StorageError σ (List Tuple × Nat)
  | [] => pure ([], 0)
  | i :: positions => do
    let (derived, fetched) ← r.derive (r.overRecent i added)
    let (others, more) ← deriveAgain r added positions
    pure ((derived ++ others).eraseDups, fetched + more)

/-- Evaluate a rule in the given round, unless it has nothing to add there: in the later rounds of
a stratum that joins whole relations, a rule that does not read the stratum is left out. -/
def deriveInRound (settings : Settings) (s : Stratum) (round : Nat) (added : Database)
    (r : Rule) : EStateM StorageError σ (Option (List Tuple × Nat)) := do
  if round = 1 then
    some <$> r.derive r.overStored
  else
    match settings.strategy with
    | .naive => if s.isRecursiveRule r then some <$> r.derive r.overStored else pure none
    | .semiNaive => some <$> deriveAgain r added (s.localPositions r)

/-- Evaluate rules one after the other. -/
def harvest (settings : Settings) (s : Stratum) (round : Nat) (added : Database) :
    List Rule → Harvest → EStateM StorageError σ Harvest
  | [], h => pure h
  | r :: rules, h => do
    match ← deriveInRound settings s round added r with
    | none => harvest settings s round added rules h
    | some (derived, fetched) =>
      harvest settings s round added rules (h.add r derived fetched)

/-- Note a tuple among those that a round has added. -/
def noteAdded (added : Database) (name : Predicate) (t : Tuple) : Except StorageError Database := do
  let added ← added.create name t.length
  let (_, added) ← added.insert name t
  pure added

/-- Insert tuples into a relation, and note those that are new. -/
def commitTuples (name : Predicate) :
    List Tuple → Database → EStateM StorageError σ Database
  | [], added => pure added
  | t :: ts, added => do
    if ← Storage.insert name t then
      match noteAdded added name t with
      | .ok added => commitTuples name ts added
      | .error e => throw e
    else commitTuples name ts added

/-- Insert the tuples collected in a round; what is returned holds those that are new. -/
def commit : List (Predicate × List Tuple) → Database → EStateM StorageError σ Database
  | [], added => pure added
  | (name, ts) :: rest, added => do
    let added ← commitTuples name ts added
    commit rest added

/-- How far the evaluation of a stratum has come. -/
structure Progress where
  /-- The records of the whole evaluation. -/
  report : Report
  /-- The report of the stratum so far. -/
  stratum : StratumReport
  /-- The tuples that the latest round has added. -/
  added : Database := ∅
  deriving DecidableEq, Repr

/-- Note the tuples that a round has added as derived in it. -/
def Report.recordDerivations (report : Report) (moment : Derivation) (added : Database) : Report :=
  let tuples := added.relations.entries.flatMap fun e => e.2.tuples.map fun t => (e.1, t)
  { report with
    derivations := tuples.foldl (fun table key => table.insertNew key moment) report.derivations }

/-- One round of a stratum. -/
def evaluateRound (settings : Settings) (place : Nat) (s : Stratum) (p : Progress) :
    EStateM StorageError σ Progress := do
  let round := p.stratum.rounds + 1
  let h ← harvest settings s round p.added s.rules {}
  let added ← commit h.candidates.entries ∅
  let report :=
    if settings.collectTimings then
      { p.report with timedRules := h.evaluated.foldl arrive p.report.timedRules }
    else p.report
  pure
    { report :=
        if settings.trackProvenance then report.recordDerivations ⟨place, round⟩ added else report
      stratum :=
        { p.stratum with
          rounds := round
          newPerRound := p.stratum.newPerRound ++ [added.totalTuples]
          tuplesScanned := p.stratum.tuplesScanned + h.fetched }
      added := added }

/-- The rounds of a stratum, of which as many as the allowance says may add tuples. -/
def evaluateRounds (settings : Settings) (place limit : Nat) (s : Stratum) :
    Nat → Progress → EStateM EvaluationError σ Progress
  | allowance, p => do
    let p ← EStateM.adaptExcept EvaluationError.storage (evaluateRound settings place s p)
    if p.added.totalTuples = 0 || !s.recursive then pure p
    else
      match allowance with
      | 0 => throw (.roundLimitExceeded place limit)
      | remaining + 1 => evaluateRounds settings place limit s remaining p

/-- Evaluate the stratum at the given place.  A stratum without rules takes no round. -/
def Stratum.evaluate (settings : Settings) (place : Nat) (s : Stratum) (report : Report) :
    EStateM EvaluationError σ Report := do
  let begun : StratumReport := { predicates := s.predicates, recursive := s.recursive }
  if s.rules.isEmpty then
    pure { report with strata := report.strata ++ [begun] }
  else
    let limit := s.allowance settings (Storage.contents (← get))
    let p ← evaluateRounds settings place limit s limit { report := report, stratum := begun }
    pure { p.report with strata := p.report.strata ++ [p.stratum] }

/-- Evaluate strata one after the other, from the given place on. -/
def evaluateFrom (settings : Settings) : Nat → List Stratum → Report →
    EStateM EvaluationError σ Report
  | _, [], report => pure report
  | place, s :: strata, report => do
    let report ← s.evaluate settings place report
    evaluateFrom settings (place + 1) strata report

/-- Evaluate all strata.  Whatever happens, the storage keeps what was added before. -/
def evaluate (settings : Settings) (strata : Stratification) : EStateM EvaluationError σ Report :=
  evaluateFrom settings 0 strata.strata {}

/-! ## Before the first round -/

/-- Create the relations of predicates, up to the first that cannot be created. -/
def createAll (p : Program) : List Predicate → EStateM StorageError σ Unit
  | [] => pure ()
  | name :: names => do
    Storage.create name ((p.arity? name).getD 0)
    createAll p names

/-- Insert the tuples of facts, and count those that are new. -/
def insertFacts : List Atom → EStateM StorageError σ Nat
  | [] => pure 0
  | a :: as => do
    match a.toTuple? with
    | none => insertFacts as
    | some t =>
      let isNew ← Storage.insert a.predicate t
      let more ← insertFacts as
      pure (if isNew then more + 1 else more)

/-- Create a relation for every predicate of a program, stratum by stratum, and then insert its
facts; the result is the number of new tuples. -/
def materialize (p : Program) (strata : Stratification) : EStateM StorageError σ Nat := do
  createAll p (strata.strata.flatMap Stratum.predicates)
  insertFacts p.facts

end Rounds

end Datalog
