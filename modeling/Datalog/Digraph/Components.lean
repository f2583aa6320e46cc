import Datalog.Digraph

/-!
# Strongly connected components

Two nodes belong to one component if each can be reached from the other.  The search below visits
every node once, depth first, and hands out the components such that each comes after all
components that it can reach.

* `Search`: the state of the search.
* `Search.step`: one step, which takes the frame on top of the work stack.
* `Search.explore`: all steps until the work stack is empty.
* `Digraph.components`: explore from every node that is still unvisited, in ascending order.

## The idea of the search

A node that is visited gets the next *index* and goes onto the component stack.  The *low link* of
a node is the least index that is known to be reachable from it through nodes on that stack.  When
all successors of a node have been dealt with and its low link is still its own index, then the
node and everything above it on the stack form a component.

The depth-first recursion is kept on a work stack of frames `(v, k)`, which say that the first `k`
successors of `v` have been dealt with.  A step on `(v, k)` either goes on to the next successor,
pushing `(v, k + 1)` and, if that successor is unvisited, a frame for it; or it leaves `v` for
good, and then the low link of `v` counts for the frame below.

## Why the search ends

A step on an unvisited node visits it, and there are finitely many nodes.  A step on a visited
node advances or removes its frame, and the only new frame it may push belongs to an unvisited
node.  So the number of unvisited nodes falls, or else it stays and the total of what is left to do
in the frames of visited nodes falls (`Search.step_decreases`).
-/

namespace Datalog

/-- The state of the search for components.  On the stacks the top comes first. -/
structure Search (n : Nat) where
  /-- The index of each node that has been visited. -/
  index : Vector (Option Nat) n
  /-- The least index known to be reachable from each visited node. -/
  lowlink : Vector Nat n
  /-- Which nodes are on the component stack. -/
  onStack : Vector Bool n
  /-- The visited nodes whose component has not been handed out. -/
  stack : List (Fin n)
  /-- The index that the next node will get. -/
  nextIndex : Nat
  /-- The frames of the search: a node, and how many of its successors have been dealt with. -/
  work : List (Fin n × Nat)
  /-- The components handed out, oldest first. -/
  components : List (List (Fin n))
  deriving DecidableEq, Repr

namespace Search

variable {n : Nat}

/-- The state before anything has been visited. -/
def initial (n : Nat) : Search n :=
  ⟨Vector.replicate n none, Vector.replicate n 0, Vector.replicate n false, [], 0, [], []⟩

/-- Give a node its index and put it onto the component stack, unless it has been visited. -/
def visit (v : Fin n) (s : Search n) : Search n :=
  match s.index.get v with
  | some _ => s
  | none =>
    { s with
      index := s.index.set v (some s.nextIndex) v.isLt
      lowlink := s.lowlink.set v s.nextIndex v.isLt
      onStack := s.onStack.set v true v.isLt
      stack := v :: s.stack
      nextIndex := s.nextIndex + 1 }

/-- Split a stack behind the topmost occurrence of a node. -/
def splitThrough (v : Fin n) : List (Fin n) → List (Fin n) × List (Fin n)
  | [] => ([], [])
  | m :: ms =>
    if m = v then ([m], ms)
    else
      let (above, below) := splitThrough v ms
      (m :: above, below)

/-- Note that nodes are no longer on the component stack. -/
def unmark : List (Fin n) → Vector Bool n → Vector Bool n
  | [], flags => flags
  | m :: ms, flags => unmark ms (flags.set m false m.isLt)

/-- Take the nodes from the top of the component stack down to `v` off it, and hand them out in
ascending order. -/
def handOut (v : Fin n) (s : Search n) : Search n :=
  let (members, rest) := splitThrough v s.stack
  { s with
    stack := rest
    onStack := unmark members s.onStack
    components := s.components ++ [(List.finRange n).filter members.contains] }

/-- Let the low link of `v` count for the frame on top of the work stack. -/
def propagate (v : Fin n) (s : Search n) : Search n :=
  match s.work with
  | [] => s
  | (u, _) :: _ =>
    { s with lowlink := s.lowlink.set u (min (s.lowlink.get u) (s.lowlink.get v)) u.isLt }

/-- Leave a node whose successors have all been dealt with. -/
def leave (v : Fin n) (s : Search n) : Search n :=
  propagate v (if s.index.get v = some (s.lowlink.get v) then handOut v s else s)

/-- Deal with the edge from `v` to `u`. -/
def follow (v u : Fin n) (s : Search n) : Search n :=
  match s.index.get u with
  | none => { s with work := (u, 0) :: s.work }
  | some i =>
    if s.onStack.get u then
      { s with lowlink := s.lowlink.set v (min (s.lowlink.get v) i) v.isLt }
    else s

/-- One step of the search: take the frame on top of the work stack, visit its node, and deal
with its next successor or leave it. -/
def step (g : Digraph n) (s : Search n) : Search n :=
  match s.work with
  | [] => s
  | (v, k) :: below =>
    let s := visit v { s with work := below }
    match (g.out v)[k]? with
    | some u => follow v u { s with work := (v, k + 1) :: s.work }
    | none => leave v s

/-! ## The search ends -/

/-- The number of nodes that have not been visited. -/
def unvisited (s : Search n) : Nat := s.index.countP Option.isNone

/-- What is left to do in a frame; nothing counts as long as its node is unvisited. -/
def frameRest (g : Digraph n) (index : Vector (Option Nat) n) (f : Fin n × Nat) : Nat :=
  if (index.get f.1).isSome then g.degree f.1 - f.2 + 1 else 0

/-- What is left to do in the frames of visited nodes. -/
def pending (g : Digraph n) (s : Search n) : Nat := total (s.work.map (frameRest g s.index))

theorem index_handOut (v : Fin n) (s : Search n) : (handOut v s).index = s.index := rfl

theorem work_handOut (v : Fin n) (s : Search n) : (handOut v s).work = s.work := rfl

theorem index_propagate (v : Fin n) (s : Search n) : (propagate v s).index = s.index := by
  unfold propagate
  split <;> rfl

theorem work_propagate (v : Fin n) (s : Search n) : (propagate v s).work = s.work := by
  unfold propagate
  split <;> rfl

theorem index_leave (v : Fin n) (s : Search n) : (leave v s).index = s.index := by
  unfold leave
  rw [index_propagate]
  split
  · exact index_handOut v s
  · rfl

theorem work_leave (v : Fin n) (s : Search n) : (leave v s).work = s.work := by
  unfold leave
  rw [work_propagate]
  split
  · exact work_handOut v s
  · rfl

theorem index_follow (v u : Fin n) (s : Search n) : (follow v u s).index = s.index := by
  unfold follow
  split
  · rfl
  · split <;> rfl

/-- Following an edge adds nothing to what is left to do in the frames of visited nodes. -/
theorem pending_follow (g : Digraph n) (v u : Fin n) (s : Search n) :
    pending g (follow v u s) = pending g s := by
  unfold follow
  split
  · next h => simp [pending, frameRest, h]
  · split <;> rfl

/-- Visiting an unvisited node leaves one unvisited node less. -/
theorem unvisited_visit {v : Fin n} {s : Search n} (h : s.index.get v = none) :
    (visit v s).unvisited < s.unvisited := by
  have hv : s.index[(v : Nat)] = none := h
  have hpos : 0 < s.index.countP Option.isNone :=
    Vector.countP_pos_iff.mpr ⟨s.index[(v : Nat)], Vector.getElem_mem v.isLt, by rw [hv]; rfl⟩
  unfold visit unvisited
  rw [h]
  simp only [Vector.countP_set, hv, Option.isNone_none, if_true, Option.isNone_some]
  simp only [Bool.false_eq_true, if_false, Nat.add_zero]
  omega

theorem visit_of_isSome {v : Fin n} {s : Search n} {i : Nat} (h : s.index.get v = some i) :
    visit v s = s := by
  unfold visit
  rw [h]

theorem work_visit (v : Fin n) (s : Search n) : (visit v s).work = s.work := by
  unfold visit
  split <;> rfl

/-- A step visits a node, or it makes progress in the frames of visited nodes. -/
theorem step_decreases (g : Digraph n) {s : Search n} (h : s.work ≠ []) :
    Prod.Lex (· < ·) (· < ·) ((step g s).unvisited, pending g (step g s))
      (s.unvisited, pending g s) := by
  obtain ⟨⟨v, k⟩, below, hw⟩ := List.exists_cons_of_ne_nil h
  unfold step
  rw [hw]
  simp only
  have hindex : ∀ t : Search n, (match (g.out v)[k]? with
      | some u => follow v u { t with work := (v, k + 1) :: t.work }
      | none => leave v t).index = t.index := by
    intro t
    split
    · rw [index_follow]
    · rw [index_leave]
  cases hv : s.index.get v with
  | none =>
    apply Prod.Lex.left
    have hlt := unvisited_visit (v := v) (s := { s with work := below }) hv
    unfold unvisited at hlt ⊢
    rw [hindex]
    exact hlt
  | some i =>
    have hsame : visit v { s with work := below } = { s with work := below } :=
      visit_of_isSome hv
    rw [hsame]
    have hun : (match (g.out v)[k]? with
        | some u => follow v u { s with work := (v, k + 1) :: below }
        | none => leave v { s with work := below }).unvisited = s.unvisited := by
      unfold unvisited
      exact congrArg _ (hindex { s with work := below })
    rw [hun]
    apply Prod.Lex.right
    have hrest : pending g s = frameRest g s.index (v, k) +
        total (below.map (frameRest g s.index)) := by
      unfold pending
      rw [hw, List.map_cons, total_cons]
    have hsome : (s.index.get v).isSome = true := by
      rw [hv]
      rfl
    split
    · next u hu =>
      rw [pending_follow, hrest]
      have hk : k < g.degree v := by
        unfold Digraph.degree
        exact (List.getElem?_eq_some_iff.mp hu).1
      simp only [pending, List.map_cons, total_cons, frameRest, hsome, if_true]
      omega
    · unfold pending
      rw [work_leave, index_leave]
      rw [show total (s.work.map (frameRest g s.index)) = _ from hrest]
      simp only [frameRest, hsome, if_true]
      omega

/-- Take steps until the work stack is empty. -/
def explore (g : Digraph n) (s : Search n) : Search n :=
  if h : s.work = [] then s
  else
    have := step_decreases g h
    explore g (step g s)
termination_by (s.unvisited, pending g s)
decreasing_by assumption

/-- Explore from a node, unless it has been visited. -/
def exploreFrom (g : Digraph n) (s : Search n) (root : Fin n) : Search n :=
  match s.index.get root with
  | some _ => s
  | none => explore g { s with work := [(root, 0)] }

end Search

/-- The strongly connected components of a graph, each in ascending order and each after all
components that it can reach. -/
def Digraph.components {n : Nat} (g : Digraph n) : List (List (Fin n)) :=
  ((List.finRange n).foldl (Search.exploreFrom g) (Search.initial n)).components

end Datalog
