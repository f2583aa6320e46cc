import Datalog.Fixpoint
import Datalog.Reader

/-!
# Knowledge bases

A `KnowledgeBase` is a program together with the storage that it is evaluated in.  Clauses may be
added in several steps, each of which is accepted as a whole or refused as a whole; the storage may
hold tuples of its own, which count as facts.

* `load`, `addFact`, `addRule`: add clauses.
* `run`: evaluate the program; the report of the last evaluation that succeeded is kept.
* `query`, `queryText`, `ask`: which instances of an atom the storage holds.
-/

namespace Datalog

/-- Why an operation of a knowledge base fails. -/
inductive Error where
  /-- Clauses are refused. -/
  | load (e : LoadError)
  /-- An evaluation ended early, or the storage failed in a query. -/
  | evaluation (e : EvaluationError)
  /-- The settings are refused. -/
  | settings (e : InvalidSettings)
  deriving DecidableEq, Repr

/-- The report of a failed operation. -/
def Error.message : Error → String
  | load e => e.message
  | evaluation e => e.message
  | settings e => e.message

/-- A program and the storage it is evaluated in. -/
structure KnowledgeBase (σ : Type) where
  /-- The clauses accepted so far. -/
  program : Program := {}
  /-- Where tuples are kept. -/
  storage : σ
  /-- How the program is evaluated. -/
  settings : Settings := {}
  /-- The report of the last evaluation that succeeded. -/
  lastReport : Option Report := none

section Query

variable {σ : Type} [Storage σ]

/-- The substitutions that turn an atom into a tuple of its relation, in the order of the tuples;
none if there is no such relation. -/
def Atom.answers (a : Atom) : EStateM StorageError σ (List Substitution) := do
  match (Storage.contents (← get)).arity? a.predicate with
  | none => pure []
  | some _ =>
    let found ← Storage.lookup a.predicate (a.pattern ∅)
    pure (found.filterMap fun t => a.match? t ∅)

end Query

namespace KnowledgeBase

variable {σ : Type}

/-- Make a call to the storage of a knowledge base. -/
def onStorage {ε ε' α : Type} (wrap : ε → ε') (call : EStateM ε σ α) :
    EStateM ε' (KnowledgeBase σ) α := fun kb =>
  match call kb.storage with
  | .ok a s => .ok a { kb with storage := s }
  | .error e s => .error (wrap e) { kb with storage := s }

/-- A failure of the storage as a failure of the knowledge base. -/
def storageFailure (e : StorageError) : Error := .evaluation (.storage e)

/-- Add clauses to the program, unless one of them violates a condition. -/
def add (batch : List Clause) : EStateM Error (KnowledgeBase σ) Unit := fun kb =>
  match Program.extend batch kb.program with
  | .ok () p => .ok () { kb with program := p }
  | .error e p => .error (.load (.illFormed e)) { kb with program := p }

/-- Add the clauses of a text. -/
def load (text : String) : EStateM Error (KnowledgeBase σ) Unit :=
  match Clause.listOfText text with
  | .ok batch => add batch
  | .error e => throw (.load e)

/-- Add a fact. -/
def addFact (a : Atom) : EStateM Error (KnowledgeBase σ) Unit := add [.fact a]

/-- Add a rule. -/
def addRule (r : Rule) : EStateM Error (KnowledgeBase σ) Unit := add [.rule r]

variable [Storage σ]

/-- Insert the facts of the program and evaluate its rules. -/
def run : EStateM Error (KnowledgeBase σ) Report := do
  let kb ← get
  match kb.settings.validate with
  | .error e => throw (.settings e)
  | .ok () =>
    let strata := Stratification.ofProgram kb.program
    let _ ← onStorage storageFailure (materialize kb.program strata)
    let report ← onStorage Error.evaluation (evaluate kb.settings strata)
    modify fun kb => { kb with lastReport := some report }
    pure report

/-- The tuples of a relation; none if the storage does not answer. -/
def facts (name : Predicate) : EStateM Error (KnowledgeBase σ) (List Tuple) := fun kb =>
  match Storage.scan name kb.storage with
  | .ok ts s => .ok ts { kb with storage := s }
  | .error _ s => .ok [] { kb with storage := s }

/-- The substitutions that turn an atom into a tuple that the storage holds. -/
def query (a : Atom) : EStateM Error (KnowledgeBase σ) (List Substitution) :=
  onStorage storageFailure a.answers

/-- The answers to the atom that a text consists of. -/
def queryText (text : String) : EStateM Error (KnowledgeBase σ) (List Substitution) :=
  match Atom.ofText text with
  | .ok a => query a
  | .error e => throw (.load e)

/-- Whether the atom that a text consists of has an answer. -/
def ask (text : String) : EStateM Error (KnowledgeBase σ) Bool := do
  let answers ← queryText text
  pure (!answers.isEmpty)

end KnowledgeBase

end Datalog
