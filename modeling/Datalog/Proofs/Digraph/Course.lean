import Datalog.Proofs.Digraph.Descent
import Mathlib.Data.List.Perm.Basic

/-!
# Every edge is followed once

The work stack does not shrink with every step: a step may push back the frame that it took, with
the next successor, and the frame of that successor on top of it.  Still, in a whole run every
frame `(v, k)` with `k` up to the number of edges that leave `v` is taken exactly once, so there
are as many steps as nodes and edges together (`Digraph.course_spec`).

* `Search.course`, `Digraph.course`: the states in which the steps of a run start.
* `Digraph.frames`: the frames that these steps take.
* `Search.taken`: how many frames of a node have been taken.
* `Search.Underway`: what is true whenever a step starts.

## Why no frame is taken twice

How many frames of a node have been taken can be read off the state: none if the node has not been
visited, as many as its frame says if it has one on the work stack, and all of them if it has been
visited and left.  A step on the frame `(v, k)` brings this number from `k` to `k + 1` for `v`, and
leaves it as it is for every other node (`Search.taken_step`).  So the number tells at every moment
which frames have been taken, and at the end all of them have.
-/

namespace Datalog

theorem getLastD_append {α : Type} (l₁ l₂ : List α) (a : α) :
    (l₁ ++ l₂).getLastD a = l₂.getLastD (l₁.getLastD a) := by
  induction l₁ generalizing a with
  | nil => rfl
  | cons b l₁ ih => rw [List.cons_append, List.getLastD_cons, List.getLastD_cons, ih]

variable {n : Nat}

namespace Search

/-! ## The states of a run -/

/-- The states in which the steps of `explore` start, in their order. -/
def course (g : Digraph n) (s : Search n) : List (Search n) :=
  if h : s.work = [] then []
  else
    have := step_decreases g h
    s :: course g (step g s)
termination_by (s.unvisited, pending g s)
decreasing_by assumption

/-- The states in which the steps of `exploreFrom` start. -/
def courseFrom (g : Digraph n) (s : Search n) (root : Fin n) : List (Search n) :=
  match s.index.get root with
  | some _ => []
  | none => course g { s with work := [(root, 0)] }

/-- The states in which steps start as roots are explored one after the other. -/
def courseOver (g : Digraph n) : List (Fin n) → Search n → List (Search n)
  | [], _ => []
  | root :: roots, s => courseFrom g s root ++ courseOver g roots (exploreFrom g s root)

end Search

/-- The states in which the steps of the search for components start, from the first step to the
last. -/
def Digraph.course (g : Digraph n) : List (Search n) :=
  Search.courseOver g (List.finRange n) (Search.initial n)

/-- The frames that the search takes off the work stack, in their order. -/
def Digraph.frames (g : Digraph n) : List (Fin n × Nat) := g.course.filterMap (·.work.head?)

namespace Search

variable {g : Digraph n} {s : Search n}

theorem course_step (h : s.work ≠ []) : course g s = s :: course g (step g s) := by
  rw [course, dif_neg h]

theorem courseFrom_of_eq_none {root : Fin n} (h : s.index.get root = none) :
    courseFrom g s root = course g { s with work := [(root, 0)] } := by
  unfold courseFrom
  rw [h]

theorem courseFrom_of_eq_some {root : Fin n} {i : Nat} (h : s.index.get root = some i) :
    courseFrom g s root = [] := by
  unfold courseFrom
  rw [h]

theorem exploreFrom_of_eq_none {root : Fin n} (h : s.index.get root = none) :
    exploreFrom g s root = explore g { s with work := [(root, 0)] } := by
  unfold exploreFrom
  rw [h]

theorem exploreFrom_of_eq_some {root : Fin n} {i : Nat} (h : s.index.get root = some i) :
    exploreFrom g s root = s := by
  unfold exploreFrom
  rw [h]

/-! ## What is true whenever a step starts -/

/-- What is true of the states in which steps start. -/
structure Underway (g : Digraph n) (s : Search n) : Prop where
  booked : s.Booked
  invariant : ∃ parts, Invariant g (settle s) parts
  dealt_le : ∀ f ∈ s.work, f.2 ≤ g.degree f.1

theorem booked_settle (h : s.Booked) : (settle s).Booked := by
  unfold settle
  split
  · exact h
  · next v k below hw =>
    cases hv : s.index.get v with
    | none => exact booked_visit hv h
    | some i =>
      rw [visit_of_isSome hv]
      exact h

theorem booked_follow (h : s.Booked) (v u : Fin n) : (follow v u s).Booked := by
  unfold follow
  split
  · exact h.withWork _
  · split
    · exact h.withLowlink _
    · exact h

theorem booked_propagate (h : s.Booked) (v : Fin n) : (propagate v s).Booked := by
  unfold propagate
  split
  · exact h
  · exact h.withLowlink _

theorem booked_leave (h : s.Booked) {v : Fin n} (hv : v ∈ s.stack) : (leave v s).Booked := by
  unfold leave
  refine booked_propagate ?_ v
  split
  · obtain ⟨above, below, hnot, hstack⟩ := h.exists_split hv
    exact booked_handOut h hnot hstack
  · exact h

namespace Underway

variable {v : Fin n} {k : Nat} {below : List (Fin n × Nat)}

/-- The node of the top frame is on the component stack once it has been visited, it has no other
frame, and the nodes of the other frames have been visited. -/
theorem top (h : Underway g s) (hw : s.work = (v, k) :: below) :
    v ∈ (visit v s).stack ∧
      ∀ f ∈ below, f.1 ≠ v ∧ (visit v s).index.get f.1 ≠ none := by
  obtain ⟨parts, hinv⟩ := h.invariant
  rw [settle_of_work hw] at hinv
  have hparts := hinv.work
  rw [work_visit, hw] at hparts
  cases parts with
  | nil => cases hparts
  | cons t rest =>
    obtain ⟨hframe, rfl⟩ := List.cons.inj hparts
    obtain ⟨rfl, rfl⟩ := Prod.mk.inj hframe
    refine ⟨hinv.node_mem_stack List.mem_cons_self, fun f hf => ?_⟩
    obtain ⟨t', ht', rfl⟩ := List.mem_map.mp hf
    refine ⟨hinv.node_ne ht', ?_⟩
    have hindex := hinv.booked.index_eq (hinv.node_mem_stack (List.mem_cons_of_mem t ht'))
    exact fun hnone => Option.some_ne_none _ (hindex.symm.trans hnone)

end Underway

theorem work_follow (v u : Fin n) (s : Search n) :
    (follow v u s).work = if s.index.get u = none then (u, 0) :: s.work else s.work := by
  unfold follow
  cases hu : s.index.get u with
  | none => rw [if_pos rfl]
  | some i =>
    rw [if_neg (Option.some_ne_none i)]
    simp only
    split <;> rfl

/-- What a step leaves on the work stack. -/
theorem work_step {v : Fin n} {k : Nat} {below : List (Fin n × Nat)}
    (hw : s.work = (v, k) :: below) :
    (step g s).work =
      match (g.out v)[k]? with
      | some u =>
        if (visit v s).index.get u = none then (u, 0) :: (v, k + 1) :: below
        else (v, k + 1) :: below
      | none => below := by
  rw [step_of_work hw]
  cases (g.out v)[k]? with
  | some u => exact work_follow v u _
  | none => exact work_leave v _

theorem Underway.step (h : Underway g s) (hwork : s.work ≠ []) : Underway g (step g s) := by
  obtain ⟨⟨v, k⟩, below, hw⟩ := List.exists_cons_of_ne_nil hwork
  obtain ⟨parts, hinv⟩ := h.invariant
  have hsettled := booked_settle h.booked
  rw [settle_of_work hw] at hsettled
  refine ⟨?_, exists_invariant_step hinv hwork, ?_⟩
  · rw [step_of_work hw]
    split
    · exact booked_follow (hsettled.withWork _) _ _
    · exact booked_leave (hsettled.withWork _) (h.top hw).1
  · have hbelow : ∀ f ∈ below, f.2 ≤ g.degree f.1 := fun f hf =>
      h.dealt_le f (hw ▸ List.mem_cons_of_mem _ hf)
    rw [work_step hw]
    split
    · next u hu =>
      have hk : k + 1 ≤ g.degree v := (List.getElem?_eq_some_iff.mp hu).1
      have hagain : ∀ f ∈ (v, k + 1) :: below, f.2 ≤ g.degree f.1 :=
        List.forall_mem_cons.mpr ⟨hk, hbelow⟩
      split
      · exact List.forall_mem_cons.mpr ⟨Nat.zero_le _, hagain⟩
      · exact hagain
    · exact hbelow

/-- Between two roots the work stack is empty, and a root that has not been visited is begun. -/
theorem Invariant.underway (h : Invariant g s []) {root : Fin n} (hroot : s.index.get root = none) :
    Underway g { s with work := [(root, 0)] } := by
  refine ⟨h.booked.withWork _, ⟨_, h.begin hroot⟩, fun f hf => ?_⟩
  obtain rfl := List.mem_singleton.mp hf
  exact Nat.zero_le _

/-- Steps start in such states only, and only if there is a frame to take. -/
theorem underway_of_mem_course (g : Digraph n) (s : Search n) (h : Underway g s) :
    ∀ t ∈ course g s, Underway g t ∧ t.work ≠ [] := by
  fun_induction course g s with
  | case1 => exact fun t ht => absurd ht List.not_mem_nil
  | case2 s hwork _ ih =>
    intro t ht
    rcases List.mem_cons.mp ht with rfl | ht
    · exact ⟨h, hwork⟩
    · exact ih (h.step hwork) t ht

theorem underway_of_mem_courseOver (roots : List (Fin n)) (h : Invariant g s []) :
    ∀ t ∈ courseOver g roots s, Underway g t ∧ t.work ≠ [] := by
  induction roots generalizing s with
  | nil => exact fun t ht => absurd ht List.not_mem_nil
  | cons root roots ih =>
    intro t ht
    rcases List.mem_append.mp ht with ht | ht
    · cases hroot : s.index.get root with
      | none =>
        rw [courseFrom_of_eq_none hroot] at ht
        exact underway_of_mem_course g _ (h.underway hroot) t ht
      | some i =>
        rw [courseFrom_of_eq_some hroot] at ht
        exact absurd ht List.not_mem_nil
    · exact ih (invariant_exploreFrom h root).1 t ht

/-! ## Counting along a run -/

/-- **Counting steps.**  If a quantity goes up by one in the steps that are counted, and stays as it
is in the others, then it tells how many have been counted. -/
theorem countP_course (amount : Search n → Nat) (counted : Search n → Bool)
    (hstep : ∀ s, Underway g s → s.work ≠ [] →
      amount (step g s) = amount s + if counted s then 1 else 0)
    (s : Search n) (h : Underway g s) :
    amount (explore g s) = amount s + (course g s).countP counted := by
  fun_induction course g s with
  | case1 s hwork =>
    rw [explore_of_nil hwork]
    rfl
  | case2 s hwork _ ih =>
    rw [explore_step hwork, List.countP_cons, ih (h.step hwork), hstep s h hwork]
    omega

/-- The same from root to root, when beginning a root changes nothing about the quantity. -/
theorem countP_courseOver (amount : Search n → Nat) (counted : Search n → Bool)
    (hstep : ∀ s, Underway g s → s.work ≠ [] →
      amount (step g s) = amount s + if counted s then 1 else 0)
    (hbegin : ∀ s root, s.work = [] → s.index.get root = none →
      amount { s with work := [(root, 0)] } = amount s)
    (roots : List (Fin n)) (h : Invariant g s []) :
    amount (roots.foldl (exploreFrom g) s) = amount s + (courseOver g roots s).countP counted := by
  induction roots generalizing s with
  | nil => rfl
  | cons root roots ih =>
    have hone : amount (exploreFrom g s root) =
        amount s + (courseFrom g s root).countP counted := by
      cases hroot : s.index.get root with
      | none =>
        rw [exploreFrom_of_eq_none hroot, courseFrom_of_eq_none hroot,
          countP_course amount counted hstep _ (h.underway hroot), hbegin s root h.work hroot]
      | some i =>
        rw [exploreFrom_of_eq_some hroot, courseFrom_of_eq_some hroot]
        rfl
    rw [List.foldl_cons, ih (invariant_exploreFrom h root).1, hone, courseOver,
      List.countP_append, Nat.add_assoc]

/-! ## The frames that have been taken -/

/-- How many frames of a node have been taken. -/
def taken (g : Digraph n) (s : Search n) (v : Fin n) : Nat :=
  match s.work.find? (·.1 = v) with
  | some f => f.2
  | none => if s.index.get v = none then 0 else g.degree v + 1

section Taken

variable {v w : Fin n} {k : Nat} {below : List (Fin n × Nat)}

theorem taken_top (hw : s.work = (v, k) :: below) : taken g s v = k := by
  unfold taken
  rw [hw, List.find?_cons_of_pos (by simp)]

theorem taken_of_ne (hw : s.work = (v, k) :: below) (h : w ≠ v) :
    taken g s w = taken g { s with work := below } w := by
  unfold taken
  rw [hw, List.find?_cons_of_neg (by simpa using h.symm)]

/-- Without a frame on the work stack it is all or nothing. -/
theorem taken_of_forall_ne (h : ∀ f ∈ s.work, f.1 ≠ v) :
    taken g s v = if s.index.get v = none then 0 else g.degree v + 1 := by
  unfold taken
  rw [List.find?_eq_none.mpr fun f hf => by simpa using h f hf]

theorem taken_congr {s' : Search n} (hwork : s'.work = s.work)
    (hindex : s'.index.get w = s.index.get w) : taken g s' w = taken g s w := by
  unfold taken
  rw [hwork, hindex]

theorem index_get_visit_of_ne (h : w ≠ v) : (visit v s).index.get w = s.index.get w := by
  cases hv : s.index.get v with
  | some i => rw [visit_of_isSome hv]
  | none => rw [index_get_visit hv, if_neg h]

/-- **A step takes one frame**: the frame on top, which is the next one of its node. -/
theorem taken_step (h : Underway g s) (hw : s.work = (v, k) :: below) (w : Fin n) :
    taken g (step g s) w = if w = v then k + 1 else taken g s w := by
  have hindex := index_step (g := g) hw
  have hvisited : (visit v s).index.get v ≠ none := index_visit_ne_none v v (Or.inr rfl)
  have hother : ∀ {s' : Search n}, s'.index = (step g s).index → s'.work = below → w ≠ v →
      taken g s' w = taken g s w := by
    intro s' hindex' hwork' hne
    rw [taken_of_ne hw hne]
    refine taken_congr hwork' ?_
    rw [hindex', hindex, index_get_visit_of_ne hne]
  have hwork := work_step (g := g) hw
  cases hu : (g.out v)[k]? with
  | none =>
    simp only [hu] at hwork
    by_cases hwv : w = v
    · subst hwv
      have hk : g.degree w = k := Nat.le_antisymm (List.getElem?_eq_none_iff.mp hu)
        (h.dealt_le (w, k) (hw ▸ List.mem_cons_self))
      rw [if_pos rfl, taken_of_forall_ne fun f hf => ((h.top hw).2 f (hwork ▸ hf)).1, hindex,
        if_neg hvisited, hk]
    · rw [if_neg hwv]
      exact hother rfl hwork hwv
  | some u =>
    simp only [hu] at hwork
    by_cases hfresh : (visit v s).index.get u = none
    · -- The frame of the fresh successor lies on top, but none of its frames has been taken.
      have huv : u ≠ v := fun heq => hvisited (heq ▸ hfresh)
      simp only [if_pos hfresh] at hwork
      by_cases hwu : w = u
      · subst hwu
        have hnone : ∀ f ∈ s.work, f.1 ≠ w := by
          intro f hf heq
          rw [hw] at hf
          rcases List.mem_cons.mp hf with rfl | hf
          · exact huv heq.symm
          · exact ((h.top hw).2 f hf).2 (heq ▸ hfresh)
        rw [if_neg huv, taken_top hwork, taken_of_forall_ne hnone,
          if_pos ((index_get_visit_of_ne huv).symm.trans hfresh)]
      · rw [taken_of_ne hwork hwu]
        by_cases hwv : w = v
        · subst hwv
          rw [if_pos rfl, taken_top rfl]
        · rw [if_neg hwv, taken_of_ne rfl hwv]
          exact hother rfl rfl hwv
    · simp only [if_neg hfresh] at hwork
      by_cases hwv : w = v
      · subst hwv
        rw [if_pos rfl, taken_top hwork]
      · rw [if_neg hwv, taken_of_ne hwork hwv]
        exact hother rfl rfl hwv

end Taken

/-- Beginning a root takes no frame. -/
theorem taken_begin {root : Fin n} (hwork : s.work = []) (hroot : s.index.get root = none)
    (w : Fin n) : taken g { s with work := [(root, 0)] } w = taken g s w := by
  have hbefore : ∀ v, taken g s v = if s.index.get v = none then 0 else g.degree v + 1 :=
    fun v => taken_of_forall_ne fun f hf => absurd (hwork ▸ hf) List.not_mem_nil
  by_cases hw : w = root
  · subst hw
    rw [hbefore, if_pos hroot, taken_top rfl]
  · rw [taken_of_ne rfl hw]
    exact taken_congr hwork.symm rfl

/-- The frames of a node that a run takes are those that it has taken at the end and had not taken
at the beginning. -/
theorem countP_frame (g : Digraph n) (v : Fin n) (k : Nat) (roots : List (Fin n))
    (h : Invariant g s []) :
    (if k < taken g (roots.foldl (exploreFrom g) s) v then 1 else 0) =
      (if k < taken g s v then 1 else 0) +
        (courseOver g roots s).countP fun t => t.work.head? == some (v, k) := by
  refine countP_courseOver (fun t => if k < taken g t v then 1 else 0) _
    (fun t ht hwork => ?_) (fun t root hwork hroot => ?_) roots h
  · obtain ⟨⟨u, j⟩, below, hw⟩ := List.exists_cons_of_ne_nil hwork
    simp only [taken_step ht hw, hw, List.head?_cons, beq_iff_eq, Option.some.injEq,
      Prod.mk.injEq]
    by_cases hu : v = u
    · subst hu
      rw [if_pos rfl, taken_top hw]
      simp only [true_and]
      split <;> split <;> split <;> omega
    · have huv : ¬ (u = v ∧ j = k) := fun heq => hu heq.1.symm
      rw [if_neg hu, if_neg huv, Nat.add_zero]
  · simp only [taken_begin hwork hroot]

/-- The index of a node changes only when the node is visited. -/
theorem countP_index (g : Digraph n) (v : Fin n) (roots : List (Fin n)) (h : Invariant g s []) :
    (if (roots.foldl (exploreFrom g) s).index.get v = none then 0 else 1) =
      (if s.index.get v = none then 0 else 1) +
        (courseOver g roots s).countP fun t => (step g t).index.get v != t.index.get v := by
  refine countP_courseOver (fun t => if t.index.get v = none then 0 else 1) _
    (fun t ht hwork => ?_) (fun t root hwork hroot => rfl) roots h
  obtain ⟨⟨u, j⟩, below, hw⟩ := List.exists_cons_of_ne_nil hwork
  simp only [index_step hw, bne_iff_ne]
  cases hu : t.index.get u with
  | some i => simp [visit_of_isSome hu]
  | none =>
    rw [index_get_visit hu]
    by_cases hvu : v = u
    · subst hvu
      simp [hu]
    · simp [hvu]

/-- A run ends where its last step leads. -/
theorem getLastD_course (g : Digraph n) (s : Search n) :
    ((course g s).map (step g)).getLastD s = explore g s := by
  fun_induction course g s with
  | case1 s hwork =>
    rw [explore_of_nil hwork]
    rfl
  | case2 s hwork _ ih =>
    rw [explore_step hwork, List.map_cons, List.getLastD_cons, ih]

theorem getLastD_courseOver (roots : List (Fin n)) (h : Invariant g s []) :
    ((courseOver g roots s).map (step g)).getLastD s = roots.foldl (exploreFrom g) s := by
  induction roots generalizing s with
  | nil => rfl
  | cons root roots ih =>
    have hone : ((courseFrom g s root).map (step g)).getLastD s = exploreFrom g s root := by
      cases hroot : s.index.get root with
      | none =>
        have hwork : ({ s with work := [(root, 0)] } : Search n).work ≠ [] := List.cons_ne_nil _ _
        have hlast := getLastD_course g { s with work := [(root, 0)] }
        rw [exploreFrom_of_eq_none hroot, courseFrom_of_eq_none hroot]
        rw [course_step hwork, List.map_cons, List.getLastD_cons] at hlast ⊢
        exact hlast
      | some i =>
        rw [exploreFrom_of_eq_some hroot, courseFrom_of_eq_some hroot]
        rfl
    rw [courseOver, List.map_append, getLastD_append, hone, List.foldl_cons,
      ih (invariant_exploreFrom h root).1]

/-- The flags tell which nodes are on the component stack. -/
def Flagged (s : Search n) : Prop := ∀ v, s.onStack.get v = true ↔ v ∈ s.stack

end Search

/-! ## The whole run -/

namespace Digraph

/-- One frame for every node, and one for every edge: `(v, k)` for the `k`-th edge of `v`, and a
last one for leaving `v`. -/
def everyFrame (g : Digraph n) : List (Fin n × Nat) :=
  (List.finRange n).flatMap fun v => (List.range (g.degree v + 1)).map (Prod.mk v)

theorem mem_everyFrame {g : Digraph n} {v : Fin n} {k : Nat} :
    (v, k) ∈ g.everyFrame ↔ k ≤ g.degree v := by
  simp only [everyFrame, List.mem_flatMap, List.mem_finRange, true_and, List.mem_map,
    List.mem_range, Prod.mk.injEq]
  constructor
  · rintro ⟨u, j, hj, rfl, rfl⟩
    exact Nat.le_of_lt_succ hj
  · exact fun hk => ⟨v, k, Nat.lt_succ_of_le hk, rfl, rfl⟩

theorem nodup_everyFrame (g : Digraph n) : g.everyFrame.Nodup := by
  refine List.nodup_flatMap.mpr ⟨fun v _ => ?_, ?_⟩
  · exact List.nodup_range.map fun j k hjk => (Prod.mk.inj hjk).2
  · refine (List.nodup_finRange n).imp fun {u v} huv f hu hv => huv ?_
    obtain ⟨j, -, rfl⟩ := List.mem_map.mp hu
    obtain ⟨k, -, heq⟩ := List.mem_map.mp hv
    exact (Prod.mk.inj heq).1.symm

theorem length_everyFrame (g : Digraph n) : g.everyFrame.length = n + g.edgeCount := by
  have hsum : ∀ l : List (Fin n),
      total (l.map fun v => g.degree v + 1) = l.length + total (l.map g.degree) := by
    intro l
    induction l with
    | nil => rfl
    | cons v l ih =>
      simp only [List.map_cons, total_cons, List.length_cons, ih]
      omega
  unfold everyFrame edgeCount
  rw [← total_map_length]
  simp only [List.length_map, List.length_range]
  rw [hsum, List.length_finRange]

/-- The search takes every frame once. -/
theorem frames_perm (g : Digraph n) : g.frames.Perm g.everyFrame := by
  rw [List.perm_iff_count]
  rintro ⟨v, k⟩
  have hcount := Search.countP_frame g v k (List.finRange n) (Search.invariant_initial g)
  obtain ⟨hend, hall⟩ := Search.invariant_foldl (List.finRange n) (Search.invariant_initial g)
  have hbegin : Search.taken g (Search.initial n) v = 0 := by
    rw [Search.taken_of_forall_ne fun f hf => absurd hf List.not_mem_nil]
    exact if_pos (Vector.getElem_replicate v.isLt)
  have hleft : Search.taken g
      ((List.finRange n).foldl (Search.exploreFrom g) (Search.initial n)) v = g.degree v + 1 := by
    rw [Search.taken_of_forall_ne fun f hf => absurd (hend.work ▸ hf) List.not_mem_nil]
    exact if_neg (hall v (Or.inr (List.mem_finRange v)))
  rw [hbegin, hleft, if_neg (Nat.not_lt_zero k), Nat.zero_add] at hcount
  rw [g.nodup_everyFrame.count, frames, List.count_filterMap]
  refine hcount.symm.trans ?_
  simp only [mem_everyFrame, Nat.lt_succ_iff]

theorem length_frames (g : Digraph n) : g.frames.length = g.course.length := by
  rw [frames, List.length_filterMap_eq_countP, List.countP_eq_length]
  intro s hs
  have hwork := (Search.underway_of_mem_courseOver _ (Search.invariant_initial g) s hs).2
  rw [List.head?_eq_some_head hwork]
  rfl

theorem length_course (g : Digraph n) : g.course.length = n + g.edgeCount := by
  rw [← g.length_frames, g.frames_perm.length_eq, g.length_everyFrame]

/-- **Every edge is followed once.**  In the search for components of a graph with `n` nodes

* every frame `(v, k)` with `k` up to the number of edges that leave `v` is taken off the work
  stack exactly once, and no other frame is;
* so there are as many steps as nodes and edges together;
* every node gets an index in exactly one step;
* the flags tell which nodes are on the component stack: when a step starts, once it has visited
  the node of its frame, and when it ends;
* between two roots, and at the end, the component stack is empty, and so is the work stack;
* and the last of the steps leads to the components that are handed out. -/
theorem course_spec (g : Digraph n) :
    (∀ v k, g.frames.count (v, k) = if k ≤ g.degree v then 1 else 0) ∧
      g.course.length = n + g.edgeCount ∧
      (∀ v, g.course.countP (fun s => (Search.step g s).index.get v != s.index.get v) = 1) ∧
      (∀ s ∈ g.course, s.Flagged ∧ (Search.settle s).Flagged ∧ (Search.step g s).Flagged) ∧
      (∀ explored left, explored ++ left = List.finRange n →
        (explored.foldl (Search.exploreFrom g) (Search.initial n)).stack = [] ∧
          (explored.foldl (Search.exploreFrom g) (Search.initial n)).work = []) ∧
      ((g.course.map (Search.step g)).getLastD (Search.initial n)).components = g.components := by
  have hinitial := Search.invariant_initial g
  refine ⟨fun v k => ?_, g.length_course, fun v => ?_, fun s hs => ?_,
    fun explored left _ => ?_, ?_⟩
  · rw [g.frames_perm.count_eq, g.nodup_everyFrame.count]
    simp only [mem_everyFrame]
  · have hcount := Search.countP_index g v (List.finRange n) hinitial
    have hvisited := (Search.invariant_foldl (List.finRange n) hinitial).2 v
      (Or.inr (List.mem_finRange v))
    have hbegin : (Search.initial n).index.get v = none := Vector.getElem_replicate v.isLt
    rw [if_neg hvisited, if_pos hbegin, Nat.zero_add] at hcount
    exact hcount.symm
  · obtain ⟨hs', hwork⟩ := Search.underway_of_mem_courseOver (List.finRange n) hinitial s hs
    exact ⟨hs'.booked.flags, (Search.booked_settle hs'.booked).flags,
      (hs'.step hwork).booked.flags⟩
  · have hend := (Search.invariant_foldl explored hinitial).1
    exact ⟨hend.stack, hend.work⟩
  · exact congrArg Search.components (Search.getLastD_courseOver (List.finRange n) hinitial)

end Digraph

end Datalog
