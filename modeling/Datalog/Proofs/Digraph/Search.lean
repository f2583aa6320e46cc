import Datalog.Digraph.Components
import Mathlib.Data.List.Nodup
import Mathlib.Data.List.Perm.Basic
import Mathlib.Logic.Relation

/-!
# The records of the search for components

The search keeps several records of the same thing: a node is visited, on the component stack, or
handed out.  `Search.Booked` says that the records agree, and that the component stack is sorted by
index, latest first.

* `Digraph.Reaches`: reachability along edges.
* `Search.rank`: the index of a visited node.
* `Search.booked_visit`, `Search.booked_handOut`: the two ways in which the records change.
-/

namespace Datalog

variable {n : Nat}

/-! ## Reachability -/

namespace Digraph

/-- There is a path of zero or more edges. -/
def Reaches (g : Digraph n) : Fin n → Fin n → Prop := Relation.ReflTransGen fun u v => v ∈ g.out u

theorem Reaches.trans {g : Digraph n} {u v w : Fin n} (h : g.Reaches u v) (h' : g.Reaches v w) :
    g.Reaches u w := Relation.ReflTransGen.trans h h'

theorem reaches_of_mem_out {g : Digraph n} {u v : Fin n} (h : v ∈ g.out u) : g.Reaches u v :=
  Relation.ReflTransGen.single h

/-- No path leaves nodes that no edge leaves. -/
theorem Reaches.mem_of_closed {g : Digraph n} {A : Set (Fin n)}
    (hA : ∀ u ∈ A, ∀ v ∈ g.out u, v ∈ A) {u v : Fin n} (h : g.Reaches u v) (hu : u ∈ A) :
    v ∈ A := by
  induction h with
  | refl => exact hu
  | tail _ hedge ih => exact hA _ ih _ hedge

end Digraph

theorem vector_get_set {α : Type} (xs : Vector α n) (u v : Fin n) (a : α) :
    (xs.set u a u.isLt).get v = if v = u then a else xs.get v := by
  show (xs.set u a u.isLt)[(v : Nat)] = if v = u then a else xs[(v : Nat)]
  rw [Vector.getElem_set]
  by_cases h : v = u
  · rw [if_pos h, if_pos (congrArg Fin.val h).symm]
  · rw [if_neg h, if_neg fun heq => h (Fin.ext heq.symm)]

namespace Search

/-- The index of a visited node. -/
def rank (s : Search n) (v : Fin n) : Nat := (s.index.get v).getD 0

/-- The nodes whose components have been handed out. -/
def done (s : Search n) : List (Fin n) := s.components.flatten

/-- The records of the search agree. -/
structure Booked (s : Search n) : Prop where
  visited : ∀ v, s.index.get v ≠ none ↔ v ∈ s.stack ∨ v ∈ s.done
  flags : ∀ v, s.onStack.get v = true ↔ v ∈ s.stack
  index_lt : ∀ v i, s.index.get v = some i → i < s.nextIndex
  sorted : s.stack.Pairwise fun u v => s.rank v < s.rank u
  disjoint : ∀ v ∈ s.stack, v ∉ s.done

namespace Booked

variable {s : Search n}

/-- The work stack plays no part. -/
theorem withWork (h : s.Booked) (work : List (Fin n × Nat)) : Booked { s with work := work } :=
  ⟨h.visited, h.flags, h.index_lt, h.sorted, h.disjoint⟩

/-- Low links play no part. -/
theorem withLowlink (h : s.Booked) (lowlink : Vector Nat n) :
    Booked { s with lowlink := lowlink } :=
  ⟨h.visited, h.flags, h.index_lt, h.sorted, h.disjoint⟩

theorem nodup (h : s.Booked) : s.stack.Nodup := by
  refine h.sorted.imp ?_
  rintro u v hlt rfl
  exact Nat.lt_irrefl _ hlt

/-- A node occurs once on the stack, with other nodes above it. -/
theorem exists_split (h : s.Booked) {v : Fin n} (hv : v ∈ s.stack) :
    ∃ above below, v ∉ above ∧ s.stack = above ++ v :: below := by
  obtain ⟨above, below, hstack⟩ := List.append_of_mem hv
  have hnodup := h.nodup
  rw [hstack] at hnodup
  refine ⟨above, below, fun hmem => ?_, hstack⟩
  exact (List.nodup_append.mp hnodup).2.2 v hmem v List.mem_cons_self rfl

theorem index_eq (h : s.Booked) {v : Fin n} (hv : v ∈ s.stack) :
    s.index.get v = some (s.rank v) := by
  have hvisited := (h.visited v).mpr (Or.inl hv)
  unfold rank
  cases hi : s.index.get v with
  | none => exact absurd hi hvisited
  | some i => rfl

theorem rank_lt (h : s.Booked) {v : Fin n} (hv : v ∈ s.stack) : s.rank v < s.nextIndex :=
  h.index_lt v _ (h.index_eq hv)

end Booked

/-! ## Visiting a node -/

theorem visit_of_eq_none {v : Fin n} {s : Search n} (h : s.index.get v = none) :
    visit v s = { s with
      index := s.index.set v (some s.nextIndex) v.isLt
      lowlink := s.lowlink.set v s.nextIndex v.isLt
      onStack := s.onStack.set v true v.isLt
      stack := v :: s.stack
      nextIndex := s.nextIndex + 1 } := by
  unfold visit
  rw [h]

section Visit

variable {s : Search n} {v : Fin n} (hv : s.index.get v = none)

include hv

theorem stack_visit : (visit v s).stack = v :: s.stack := by rw [visit_of_eq_none hv]

theorem components_visit : (visit v s).components = s.components := by rw [visit_of_eq_none hv]

theorem index_get_visit (u : Fin n) :
    (visit v s).index.get u = if u = v then some s.nextIndex else s.index.get u := by
  rw [visit_of_eq_none hv]
  exact vector_get_set _ _ _ _

theorem rank_visit (u : Fin n) :
    (visit v s).rank u = if u = v then s.nextIndex else s.rank u := by
  unfold rank
  rw [index_get_visit hv]
  split <;> rfl

theorem lowlink_visit (u : Fin n) :
    (visit v s).lowlink.get u = if u = v then s.nextIndex else s.lowlink.get u := by
  rw [visit_of_eq_none hv]
  exact vector_get_set _ _ _ _

theorem ne_of_mem_stack (h : s.Booked) {u : Fin n} (hu : u ∈ s.stack) : u ≠ v := by
  rintro rfl
  exact (h.visited u).mpr (Or.inl hu) hv

theorem booked_visit (h : s.Booked) : (visit v s).Booked := by
  have hdone : (visit v s).done = s.done := congrArg List.flatten (components_visit hv)
  have hnot : ¬ (v ∈ s.stack ∨ v ∈ s.done) := fun hmem => (h.visited v).mpr hmem hv
  refine ⟨?_, ?_, ?_, ?_, ?_⟩
  · intro u
    rw [index_get_visit hv, stack_visit hv, hdone, List.mem_cons]
    by_cases hu : u = v
    · simp [hu]
    · rw [if_neg hu, h.visited u, or_iff_right hu]
  · intro u
    rw [stack_visit hv, visit_of_eq_none hv, List.mem_cons]
    show (s.onStack.set v true v.isLt).get u = true ↔ _
    rw [vector_get_set]
    by_cases hu : u = v
    · simp [hu]
    · rw [if_neg hu, h.flags u, or_iff_right hu]
  · intro u i hi
    rw [index_get_visit hv] at hi
    rw [visit_of_eq_none hv]
    show i < s.nextIndex + 1
    split at hi
    · have := Option.some.inj hi
      omega
    · have := h.index_lt u i hi
      omega
  · rw [stack_visit hv, List.pairwise_cons]
    constructor
    · intro u hu
      rw [rank_visit hv, rank_visit hv, if_pos rfl, if_neg (ne_of_mem_stack hv h hu)]
      exact h.rank_lt hu
    · refine h.sorted.imp_of_mem fun {a b} ha hb hlt => ?_
      rw [rank_visit hv, rank_visit hv, if_neg (ne_of_mem_stack hv h ha),
        if_neg (ne_of_mem_stack hv h hb)]
      exact hlt
  · intro u hu
    rw [stack_visit hv, List.mem_cons] at hu
    rw [hdone]
    rcases hu with rfl | hu
    · exact fun hmem => hnot (Or.inr hmem)
    · exact h.disjoint u hu

end Visit

/-! ## Handing out a component -/

theorem splitThrough_append {v : Fin n} {above below : List (Fin n)} (h : v ∉ above) :
    splitThrough v (above ++ v :: below) = (above ++ [v], below) := by
  induction above with
  | nil =>
    rw [List.nil_append, splitThrough, if_pos rfl]
    rfl
  | cons m above ih =>
    have hne : m ≠ v := fun heq => h (heq ▸ List.mem_cons_self)
    rw [List.cons_append, splitThrough, if_neg hne, ih fun hmem => h (List.mem_cons_of_mem m hmem)]
    rfl

theorem get_unmark (ms : List (Fin n)) (flags : Vector Bool n) (v : Fin n) :
    (unmark ms flags).get v = true ↔ v ∉ ms ∧ flags.get v = true := by
  induction ms generalizing flags with
  | nil => simp [unmark]
  | cons m ms ih =>
    rw [unmark, ih, vector_get_set, List.mem_cons]
    by_cases hv : v = m
    · simp [hv]
    · simp [hv]

/-- The nodes of a list in ascending order. -/
def ascending (members : List (Fin n)) : List (Fin n) :=
  (List.finRange n).filter members.contains

theorem mem_ascending {members : List (Fin n)} {v : Fin n} :
    v ∈ ascending members ↔ v ∈ members := by
  unfold ascending
  rw [List.mem_filter, and_iff_right (List.mem_finRange v), List.contains_iff_mem]

theorem nodup_ascending (members : List (Fin n)) : (ascending members).Nodup :=
  (List.nodup_finRange n).filter _

theorem handOut_eq {v : Fin n} {s : Search n} {above below : List (Fin n)} (h : v ∉ above)
    (hstack : s.stack = above ++ v :: below) :
    handOut v s = { s with
      stack := below
      onStack := unmark (above ++ [v]) s.onStack
      components := s.components ++ [ascending (above ++ [v])] } := by
  unfold handOut
  rw [hstack, splitThrough_append h]
  rfl

theorem booked_handOut {v : Fin n} {s : Search n} (hs : s.Booked) {above below : List (Fin n)}
    (h : v ∉ above) (hstack : s.stack = above ++ v :: below) : (handOut v s).Booked := by
  have hsplit : s.stack = (above ++ [v]) ++ below := by rw [hstack, List.append_assoc]; rfl
  have hnodup : ((above ++ [v]) ++ below).Nodup := hsplit ▸ hs.nodup
  have hapart := (List.nodup_append.mp hnodup).2.2
  rw [handOut_eq h hstack]
  have hdone : ∀ u, u ∈ (s.components ++ [ascending (above ++ [v])]).flatten ↔
      u ∈ s.done ∨ u ∈ above ++ [v] := by
    intro u
    rw [List.flatten_append, List.mem_append, List.flatten_singleton, mem_ascending]
    rfl
  refine ⟨?_, ?_, hs.index_lt, ?_, ?_⟩
  · intro u
    show _ ↔ u ∈ below ∨ u ∈ List.flatten _
    rw [hdone, hs.visited, hsplit, List.mem_append]
    tauto
  · intro u
    show (unmark (above ++ [v]) s.onStack).get u = true ↔ u ∈ below
    rw [get_unmark, hs.flags, hsplit, List.mem_append (s := above ++ [v])]
    constructor
    · rintro ⟨hnot, hmem⟩
      exact hmem.resolve_left hnot
    · exact fun hu => ⟨fun hmem => hapart u hmem u hu rfl, Or.inr hu⟩
  · have hsorted := hs.sorted
    rw [hsplit] at hsorted
    exact (List.pairwise_append.mp hsorted).2.1
  · intro u hu
    show u ∉ List.flatten _
    rw [hdone]
    rintro (hmem | hmem)
    · exact hs.disjoint u (hsplit ▸ List.mem_append_right _ hu) hmem
    · exact hapart u hmem u hu rfl

end Search

end Datalog
