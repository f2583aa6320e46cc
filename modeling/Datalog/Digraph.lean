import Datalog.Total

/-!
# Directed graphs on numbered nodes

A `Digraph n` has the nodes `0, …, n - 1`; every node has a list of successors in a fixed order,
and that order is the one in which the successors are visited.
-/

namespace Datalog

/-- A directed graph on `n` numbered nodes. -/
structure Digraph (n : Nat) where
  /-- The successors of each node, in the order in which they are visited. -/
  successors : Vector (List (Fin n)) n
  deriving DecidableEq, Repr

namespace Digraph

variable {n : Nat}

/-- The successors of a node. -/
def out (g : Digraph n) (v : Fin n) : List (Fin n) := g.successors.get v

/-- Whether there is an edge from the first node to the second. -/
def hasEdge (g : Digraph n) (u v : Fin n) : Bool := (g.out u).contains v

/-- The number of edges that leave a node. -/
def degree (g : Digraph n) (v : Fin n) : Nat := (g.out v).length

/-- The number of edges. -/
def edgeCount (g : Digraph n) : Nat := total ((List.finRange n).map g.degree)

end Digraph

end Datalog
