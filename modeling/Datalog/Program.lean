import Datalog.Table
import Datalog.Clause.Text
import Datalog.Clause.WellFormed

/-!
# Programs

A `Program` is a list of clauses together with a *catalog*: for every predicate, in order of first
occurrence, its arity and the places of the clauses that state it.  Programs grow by batches of
clauses, and a batch is accepted as a whole or not at all.

* `Program.extend`: add a batch, or report its first violation.
* `Program.ofClauses`: the program of a single batch.
* `Program.rulesFor`: the rules that state a predicate, found through the catalog.

## Why a refused batch leaves no trace

Clauses are entered into the catalog one by one, and the entries of a batch that turns out to be
refused are withdrawn.  New predicates stand behind all known ones, so cutting the catalog to its
former length removes them; the places of new clauses are all at or past the former number of
clauses and stand behind the old ones, so dropping places from the end of each list, up to the first
that is below that number, restores the old entries.  Nothing else of a program changes before its
batch is accepted.
-/

namespace Datalog

/-- What a program says about one predicate. -/
structure Signature where
  /-- The number of arguments at every occurrence. -/
  arity : Nat
  /-- The places of the facts that state the predicate, ascending. -/
  facts : List Nat := []
  /-- The places of the rules with the predicate in their head, ascending. -/
  rules : List Nat := []
  deriving DecidableEq, Repr

/-- The predicates of a program, in order of first occurrence. -/
abbrev Catalog := Table Predicate Signature

/-- An ordered list of clauses and the catalog of their predicates. -/
structure Program where
  /-- The clauses, oldest first. -/
  clauses : List Clause := []
  /-- What they say about each predicate. -/
  catalog : Catalog := ∅
  deriving DecidableEq, Repr

namespace Signature

/-- Note a clause that states the predicate. -/
def record (s : Signature) (place : Nat) : Clause → Signature
  | .fact _ => { s with facts := s.facts ++ [place] }
  | .rule _ => { s with rules := s.rules ++ [place] }

/-- Drop places from the end of a list as long as the last one is at or past `base`. -/
def dropFrom (base : Nat) (places : List Nat) : List Nat :=
  (places.reverse.dropWhile fun place => base ≤ place).reverse

/-- Drop the places at or past `base`, which stand behind all others. -/
def withdrawFrom (base : Nat) (s : Signature) : Signature :=
  { s with facts := dropFrom base s.facts, rules := dropFrom base s.rules }

end Signature

namespace Catalog

/-- Note an occurrence of a predicate: the first one fixes its arity, every later one must agree
with it. -/
def declare (a : Atom) : EStateM IllFormed Catalog Unit := fun catalog =>
  match catalog.find? a.predicate with
  | none => .ok () (catalog.insertNew a.predicate ⟨a.arity, [], []⟩)
  | some s =>
    if s.arity = a.arity then .ok () catalog
    else .error (.arityMismatch a.predicate s.arity a.arity) catalog

/-- Note the occurrences in a list of atoms, up to the first that disagrees. -/
def declareAll : List Atom → EStateM IllFormed Catalog Unit
  | [] => pure ()
  | a :: as => do
    declare a
    declareAll as

/-- Note that the clause at the given place states the predicate of its head. -/
def record (place : Nat) (c : Clause) (catalog : Catalog) : Catalog :=
  catalog.upsert c.head.predicate fun s => (s.getD ⟨c.head.arity, [], []⟩).record place c

/-- Enter a clause at the given place: check it on its own, then the arities of its atoms, the
head first. -/
def enter (place : Nat) (c : Clause) : EStateM IllFormed Catalog Unit := do
  match c.check with
  | .error e => throw e
  | .ok () =>
    declareAll c.atoms
    modify (record place c)

/-- Enter clauses at consecutive places, up to the first that is refused. -/
def enterAll : Nat → List Clause → EStateM IllFormed Catalog Unit
  | _, [] => pure ()
  | place, c :: cs => do
    enter place c
    enterAll (place + 1) cs

/-- Take back all that was entered since there were `known` predicates and `base` clauses. -/
def withdraw (known base : Nat) (catalog : Catalog) : Catalog :=
  (catalog.truncate known).mapValues (Signature.withdrawFrom base)

end Catalog

namespace Program

/-- Add a batch of clauses.  If one of them violates a condition, given all clauses before it, the
program stays as it is. -/
def extend (batch : List Clause) : EStateM IllFormed Program Unit := fun p =>
  match Catalog.enterAll p.clauses.length batch p.catalog with
  | .ok () catalog => .ok () ⟨p.clauses ++ batch, catalog⟩
  | .error e catalog =>
    .error e ⟨p.clauses, catalog.withdraw p.catalog.entries.length p.clauses.length⟩

/-- The program of a single batch. -/
def ofClauses (cs : List Clause) : Except IllFormed Program :=
  match extend cs {} with
  | .ok () p => .ok p
  | .error e _ => .error e

/-- The predicates, in order of first occurrence. -/
def predicates (p : Program) : List Predicate := p.catalog.keys

/-- The arity of a predicate of the program. -/
def arity? (p : Program) (name : Predicate) : Option Nat :=
  (p.catalog.find? name).map Signature.arity

/-- The atoms that the program states as facts, in order. -/
def facts (p : Program) : List Atom := p.clauses.filterMap Clause.fact?

/-- The rules, in order. -/
def rules (p : Program) : List Rule := p.clauses.filterMap Clause.rule?

/-- The rules with the given predicate in their head, in order. -/
def rulesFor (p : Program) (name : Predicate) : List Rule :=
  match p.catalog.find? name with
  | none => []
  | some s => s.rules.filterMap fun place => p.clauses[place]? >>= Clause.rule?

/-- Whether the program has no clauses. -/
def isEmpty (p : Program) : Bool := p.clauses.isEmpty

/-- The clauses, one per line. -/
def text (p : Program) : String := Clause.listText p.clauses

end Program

end Datalog
