import Datalog.Proofs.Digraph.Course

/-!
# The search with its steps counted

A run of the search goes on until the work stack is empty.  There are as many steps in all as nodes
and edges together, and a step on an empty work stack changes nothing, so from every root this
number of steps is enough (`Digraph.components_eq_componentsIn`).

* `Search.explore_eq_iterate`: a run is the iteration of its step.
* `Search.exploreFromIn`: exploring from a node in a given number of steps.
* `Digraph.componentsIn`: the components that are handed out in this way.

## Why the steps are counted

How `explore` unfolds depends on the proof that it ends, and such proofs do not compute.  Iterating
a step does, so the components of a concrete graph can be evaluated.
-/

namespace Datalog

variable {n : Nat}

namespace Search

/-- Explore from a node in `k` steps, unless it has been visited. -/
def exploreFromIn (k : Nat) (g : Digraph n) (s : Search n) (root : Fin n) : Search n :=
  match s.index.get root with
  | some _ => s
  | none => (step g)^[k] { s with work := [(root, 0)] }

variable {g : Digraph n} {s : Search n} {k : Nat}

theorem step_of_nil (h : s.work = []) : step g s = s := by
  unfold step
  rw [h]

/-- A run is the iteration of its step, as often as it takes or more often. -/
theorem explore_eq_iterate (h : (course g s).length ≤ k) : explore g s = (step g)^[k] s := by
  induction k generalizing s with
  | zero =>
    have hwork : s.work = [] := by
      by_contra hwork
      rw [course_step hwork] at h
      exact Nat.not_succ_le_zero _ h
    exact explore_of_nil hwork
  | succ k ih =>
    by_cases hwork : s.work = []
    · rw [explore_of_nil hwork, Function.iterate_fixed (step_of_nil hwork)]
    · rw [course_step hwork, List.length_cons] at h
      rw [explore_step hwork, Function.iterate_succ_apply]
      exact ih (Nat.le_of_succ_le_succ h)

theorem exploreFrom_eq {root : Fin n} (h : (courseFrom g s root).length ≤ k) :
    exploreFrom g s root = exploreFromIn k g s root := by
  unfold exploreFromIn
  cases hroot : s.index.get root with
  | some i => exact exploreFrom_of_eq_some hroot
  | none =>
    rw [courseFrom_of_eq_none hroot] at h
    rw [exploreFrom_of_eq_none hroot]
    exact explore_eq_iterate h

/-- What is enough for all roots together is enough for each of them. -/
theorem foldl_exploreFrom_eq (roots : List (Fin n)) (h : (courseOver g roots s).length ≤ k) :
    roots.foldl (exploreFrom g) s = roots.foldl (exploreFromIn k g) s := by
  induction roots generalizing s with
  | nil => rfl
  | cons root roots ih =>
    rw [courseOver, List.length_append] at h
    rw [List.foldl_cons, List.foldl_cons,
      ← exploreFrom_eq (Nat.le_trans (Nat.le_add_right _ _) h)]
    exact ih (Nat.le_trans (Nat.le_add_left _ _) h)

end Search

namespace Digraph

/-- The components that are handed out when every root is given `k` steps. -/
def componentsIn (k : Nat) (g : Digraph n) : List (List (Fin n)) :=
  ((List.finRange n).foldl (Search.exploreFromIn k g) (Search.initial n)).components

/-- **As many steps as nodes and edges** are enough for every root. -/
theorem components_eq_componentsIn (g : Digraph n) :
    g.components = g.componentsIn (n + g.edgeCount) :=
  congrArg Search.components (Search.foldl_exploreFrom_eq _ (Nat.le_of_eq g.length_course))

end Digraph

end Datalog
