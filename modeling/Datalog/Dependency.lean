import Datalog.Digraph.Components
import Datalog.Program

/-!
# Dependencies between predicates

A predicate *depends* on another one if some rule for the first has a body atom over the second.
The predicates of a program, in order of first occurrence, are the nodes of its dependency graph,
and the successors of a predicate are those it depends on, in the order in which its rules first
mention them.

* `Dependency.ofProgram`: the dependency graph of a program.
* `Dependency.dependsOn`, `Dependency.edges`: which predicate depends on which by a single step.
* `Dependency.groups`: the groups of mutually dependent predicates, dependencies first.
-/

namespace Datalog

/-- The dependency graph of some predicates. -/
structure Dependency where
  /-- The predicates; each is the node of its place in the list. -/
  predicates : List Predicate
  /-- The edges, from each predicate to those it depends on. -/
  graph : Digraph predicates.length

namespace Dependency

/-- The nodes that the rules for a predicate read, in order of first mention. -/
def reads (predicates : List Predicate) (rules : List Rule) (head : Predicate) :
    List (Fin predicates.length) :=
  let bodies := (rules.filter fun r => r.head.predicate = head).flatMap Rule.body
  (bodies.filterMap fun a => predicates.finIdxOf? a.predicate).eraseDups

/-- The dependency graph of a program. -/
def ofProgram (p : Program) : Dependency :=
  ⟨p.predicates, ⟨Vector.ofFn fun v => reads p.predicates p.rules (p.predicates.get v)⟩⟩

/-- The number of predicates. -/
def size (d : Dependency) : Nat := d.predicates.length

/-- Whether the first predicate depends on the second by a single step. -/
def dependsOn (d : Dependency) (a b : Predicate) : Bool :=
  match d.predicates.finIdxOf? a, d.predicates.finIdxOf? b with
  | some u, some v => d.graph.hasEdge u v
  | _, _ => false

/-- All pairs of a predicate and one it depends on, in order of first occurrence, the depending one
first. -/
def edges (d : Dependency) : List (Predicate × Predicate) :=
  (List.finRange d.predicates.length).flatMap fun u =>
    let targets := (List.finRange d.predicates.length).filter (d.graph.hasEdge u)
    targets.map fun v => (d.predicates.get u, d.predicates.get v)

/-- The groups of predicates that depend on each other, every group after all groups it depends
on. -/
def groups (d : Dependency) : List (List (Fin d.predicates.length)) := d.graph.components

/-- Whether the predicates of a group depend on themselves: a group of several always does, a
single predicate only if it has an edge to itself. -/
def isRecursive (d : Dependency) (group : List (Fin d.predicates.length)) : Bool :=
  match group with
  | [] => false
  | [v] => d.graph.hasEdge v v
  | _ => true

end Dependency

end Datalog
