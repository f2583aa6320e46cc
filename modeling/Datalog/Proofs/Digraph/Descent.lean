import Datalog.Proofs.Digraph.Components
import Mathlib.Data.Fintype.Basic
import Mathlib.Data.Finset.Card
import Mathlib.Data.List.Sort
import Mathlib.Data.Prod.Lex

/-!
# The search for components as a recursion

Tarjan's algorithm is best understood as a recursion: to visit a node is to give it an index, to
deal with its successors one after the other, visiting those that have no index yet, and at last to
hand out a component if the low link of the node is its own index.  `Digraph.descend` is this
recursion, with nothing in it but the records of the algorithm.  `Digraph.components` takes single
steps instead and keeps what it has still to do on a work stack, so that the depth of a graph does
not matter.  Both hand out the same components, in the same order (`Digraph.components_eq_descend`).

* `Descent`: the records of the recursive search.
* `Descent.visit`, `Descent.visitSuccessors`: the recursion.
* `Descent.Agrees`: the records of the two searches tell the same.

## How a frame and a call correspond

A frame `(v, k)` on top of the work stack stands for the rest of a call: the successors of `v` from
the `k`-th on, and then the end of the visit to `v`.  Until that frame is gone, the search does what
the call does, and then it lets the low link of `v` count for the frame below
(`Search.explore_frame`).  In the recursion the same update belongs to the caller, which makes it
right after the call.  The frames further below play no part in any of this, so the call stack need
not be described.
-/

namespace Datalog

variable {n : Nat}

/-- The records of the recursive search.  The top of the component stack comes first. -/
structure Descent (n : Nat) where
  /-- The index of each node that has been visited. -/
  index : Fin n → Option Nat
  /-- The low link of each node that has been visited. -/
  lowlink : Fin n → Nat
  /-- The visited nodes whose component has not been handed out. -/
  stack : List (Fin n)
  /-- The index that the next node will get. -/
  nextIndex : Nat
  /-- The components handed out, oldest first. -/
  components : List (List (Fin n))

namespace Descent

/-- The records before anything has been visited. -/
def initial (n : Nat) : Descent n := ⟨fun _ => none, fun _ => 0, [], 0, []⟩

/-- Give a node the next index, and put it onto the component stack. -/
def enter (v : Fin n) (t : Descent n) : Descent n :=
  { t with
    index := Function.update t.index v (some t.nextIndex)
    lowlink := Function.update t.lowlink v t.nextIndex
    stack := v :: t.stack
    nextIndex := t.nextIndex + 1 }

/-- Let the low link of a node fall to a value. -/
def lower (v : Fin n) (value : Nat) (t : Descent n) : Descent n :=
  { t with lowlink := Function.update t.lowlink v (min (t.lowlink v) value) }

/-- End the visit to a node: if its low link is its own index, then it and all nodes above it are
taken off the component stack, and handed out sorted by number. -/
def finish (v : Fin n) (t : Descent n) : Descent n :=
  if t.index v = some (t.lowlink v) then
    { t with
      stack := (t.stack.dropWhile (· ≠ v)).tail
      components := t.components ++
        [(t.stack.takeWhile (· ≠ v) ++ [v]).mergeSort fun a b => decide (a ≤ b)] }
  else t

/-! ## What a visit keeps -/

/-- The number of nodes that have not been visited. -/
def unvisited (t : Descent n) : Nat := (Finset.univ.filter fun v => t.index v = none).card

/-- Later records: nothing is visited any less, and what was on the stack has stayed at its
bottom. -/
structure Continues (t t' : Descent n) : Prop where
  unvisited_le : t'.unvisited ≤ t.unvisited
  stack_suffix : t.stack <:+ t'.stack

theorem Continues.refl (t : Descent n) : t.Continues t := ⟨le_refl _, List.suffix_refl _⟩

theorem Continues.trans {t t' t'' : Descent n} (h : t.Continues t') (h' : t'.Continues t'') :
    t.Continues t'' :=
  ⟨h'.unvisited_le.trans h.unvisited_le, h.stack_suffix.trans h'.stack_suffix⟩

theorem continues_lower (v : Fin n) (value : Nat) (t : Descent n) :
    t.Continues (t.lower v value) := ⟨le_refl _, List.suffix_refl _⟩

theorem unvisited_enter {v : Fin n} {t : Descent n} (h : t.index v = none) :
    (t.enter v).unvisited < t.unvisited := by
  refine Finset.card_lt_card ((Finset.ssubset_iff_of_subset ?_).mpr ⟨v, by simpa using h, ?_⟩)
  · intro u hu
    rw [Finset.mem_filter] at hu ⊢
    by_cases huv : u = v
    · exact ⟨hu.1, huv ▸ h⟩
    · exact ⟨hu.1, (Function.update_of_ne huv _ _).symm.trans hu.2⟩
  · rw [Finset.mem_filter]
    intro hv
    exact Option.some_ne_none _ ((Function.update_self v _ t.index).symm.trans hv.2)

theorem unvisited_finish (v : Fin n) (t : Descent n) : (t.finish v).unvisited = t.unvisited := by
  unfold finish
  split <;> rfl

/-- The end of a visit takes nothing off the stack that was there when it began. -/
theorem continues_finish {v : Fin n} {t t' : Descent n} (h : t.index v = none)
    (hlater : (t.enter v).Continues t') : t.Continues (t'.finish v) := by
  refine ⟨?_, ?_⟩
  · rw [unvisited_finish]
    exact hlater.unvisited_le.trans (unvisited_enter h).le
  · obtain ⟨above, habove⟩ := hlater.stack_suffix
    unfold finish
    split
    · show t.stack <:+ (t'.stack.dropWhile (· ≠ v)).tail
      rw [← habove]
      clear habove
      induction above with
      | nil => simp [enter]
      | cons u above ih =>
        rw [List.cons_append, List.dropWhile_cons]
        split
        · exact ih
        · exact (List.suffix_cons v t.stack).trans (List.suffix_append above _)
    · exact (List.suffix_cons v t.stack).trans ⟨above, habove⟩

/-! ## The recursion -/

mutual

/-- Visit a node that has not been visited. -/
def visit (g : Digraph n) (v : Fin n) (t : Descent n) (h : t.index v = none) :
    { t' : Descent n // t.Continues t' } :=
  let later := visitSuccessors g v (g.out v) (t.enter v)
  ⟨later.1.finish v, continues_finish h later.2⟩
termination_by (t.unvisited, 0)
decreasing_by exact Prod.Lex.left _ _ (unvisited_enter h)

/-- Deal with successors of a node, one after the other: visit those that have not been visited,
and then let their low links count for the node; of the others, those on the component stack count
with their index. -/
def visitSuccessors (g : Digraph n) (v : Fin n) :
    List (Fin n) → (t : Descent n) → { t' : Descent n // t.Continues t' }
  | [], t => ⟨t, .refl t⟩
  | u :: us, t =>
    match h : t.index u with
    | none =>
      let visited := visit g u t h
      let later := visitSuccessors g v us (visited.1.lower v (visited.1.lowlink u))
      ⟨later.1, visited.2.trans ((continues_lower v _ _).trans later.2)⟩
    | some i =>
      if u ∈ t.stack then
        let later := visitSuccessors g v us (t.lower v i)
        ⟨later.1, (continues_lower v i t).trans later.2⟩
      else visitSuccessors g v us t
termination_by us t => (t.unvisited, us.length + 1)
decreasing_by
  · exact Prod.Lex.right _ (by omega)
  · have hle : visited.1.unvisited ≤ t.unvisited := visited.2.unvisited_le
    rcases hle.lt_or_eq with hlt | heq
    · exact Prod.Lex.left _ _ hlt
    · rw [show Descent.unvisited (visited.1.lower v (visited.1.lowlink u)) = _ from heq]
      exact Prod.Lex.right _ (by simp)
  · exact Prod.Lex.right _ (by simp)
  · exact Prod.Lex.right _ (by simp)

end

/-- Visit nodes one after the other, unless they have been visited. -/
def visitAll (g : Digraph n) : List (Fin n) → Descent n → Descent n
  | [], t => t
  | root :: roots, t =>
    match h : t.index root with
    | none => visitAll g roots (visit g root t h).1
    | some _ => visitAll g roots t

theorem visitAll_of_eq_none (g : Digraph n) {root : Fin n} (roots : List (Fin n)) {t : Descent n}
    (h : t.index root = none) :
    visitAll g (root :: roots) t = visitAll g roots (visit g root t h).1 := by
  rw [visitAll]
  split
  · rfl
  · next i hi =>
    rw [h] at hi
    cases hi

theorem visitAll_of_eq_some (g : Digraph n) {root : Fin n} (roots : List (Fin n)) {t : Descent n}
    {i : Nat} (h : t.index root = some i) :
    visitAll g (root :: roots) t = visitAll g roots t := by
  rw [visitAll]
  split
  · next hnone =>
    rw [h] at hnone
    cases hnone
  · rfl

/-! ### Its equations -/

theorem visit_val (g : Digraph n) {v : Fin n} {t : Descent n} (h : t.index v = none) :
    (visit g v t h).1 = (visitSuccessors g v (g.out v) (t.enter v)).1.finish v := by
  rw [visit]

section Equations

variable (g : Digraph n) (v : Fin n) {u : Fin n} {us : List (Fin n)} {t : Descent n}

theorem visitSuccessors_nil : (visitSuccessors g v [] t).1 = t := by
  rw [visitSuccessors]

theorem visitSuccessors_of_eq_none (h : t.index u = none) :
    (visitSuccessors g v (u :: us) t).1 =
      (visitSuccessors g v us
        ((visit g u t h).1.lower v ((visit g u t h).1.lowlink u))).1 := by
  rw [visitSuccessors]
  split
  · rfl
  · next i hi =>
    rw [h] at hi
    cases hi

theorem visitSuccessors_of_eq_some {i : Nat} (h : t.index u = some i) :
    (visitSuccessors g v (u :: us) t).1 =
      (visitSuccessors g v us (if u ∈ t.stack then t.lower v i else t)).1 := by
  rw [visitSuccessors]
  split
  · next hnone =>
    rw [h] at hnone
    cases hnone
  · next j hj =>
    rw [h] at hj
    obtain rfl := Option.some.inj hj
    by_cases hstack : u ∈ t.stack
    · rw [if_pos hstack, if_pos hstack]
    · rw [if_neg hstack, if_neg hstack]

end Equations

end Descent

/-- The strongly connected components of a graph, found by recursive descent: from the nodes in
ascending order, and from each node along its edges in their order. -/
def Digraph.descend (g : Digraph n) : List (List (Fin n)) :=
  (Descent.visitAll g (List.finRange n) (Descent.initial n)).components

/-! ## The two searches side by side -/

/-- The records of the two searches tell the same. -/
structure Descent.Agrees (s : Search n) (t : Descent n) : Prop where
  booked : s.Booked
  index : ∀ v, s.index.get v = t.index v
  lowlink : ∀ v, s.lowlink.get v = t.lowlink v
  stack : s.stack = t.stack
  nextIndex : s.nextIndex = t.nextIndex
  components : s.components = t.components

/-- Sorting nodes by number, each of which occurs once, is filtering all nodes. -/
theorem Search.ascending_eq_mergeSort {members : List (Fin n)} (h : members.Nodup) :
    ascending members = members.mergeSort fun a b => decide (a ≤ b) := by
  have hperm : (ascending members).Perm (members.mergeSort fun a b => decide (a ≤ b)) := by
    refine List.Perm.trans ?_ (List.mergeSort_perm members _).symm
    rw [List.perm_ext_iff_of_nodup (nodup_ascending members) h]
    exact fun v => mem_ascending
  have hall : (List.finRange n).Pairwise (· ≤ ·) :=
    (List.sortedLT_finRange n).pairwise.imp fun hlt => le_of_lt hlt
  exact hperm.eq_of_pairwise' (hall.filter _) (List.pairwise_mergeSort' (· ≤ ·) members)

namespace Descent.Agrees

variable {s : Search n} {t : Descent n} (h : Agrees s t)

include h

theorem withWork (work : List (Fin n × Nat)) : Agrees { s with work := work } t :=
  ⟨h.booked.withWork work, h.index, h.lowlink, h.stack, h.nextIndex, h.components⟩

theorem enter {v : Fin n} (hv : s.index.get v = none) : Agrees (Search.visit v s) (t.enter v) := by
  refine ⟨Search.booked_visit hv h.booked, fun u => ?_, fun u => ?_, ?_, ?_, ?_⟩
  · rw [Search.index_get_visit hv, h.index, h.nextIndex]
    exact (Function.update_apply _ _ _ _).symm
  · rw [Search.lowlink_visit hv, h.lowlink, h.nextIndex]
    exact (Function.update_apply _ _ _ _).symm
  · rw [Search.stack_visit hv, h.stack]
    rfl
  · rw [Search.visit_of_eq_none hv]
    exact congrArg Nat.succ h.nextIndex
  · rw [Search.components_visit hv]
    exact h.components

theorem lower (v : Fin n) (value : Nat) : Agrees (s.lowered v value) (t.lower v value) := by
  refine ⟨h.booked.withLowlink _, h.index, fun u => ?_, h.stack, h.nextIndex, h.components⟩
  rw [Search.lowlink_lowered, h.lowlink, h.lowlink]
  exact (Function.update_apply _ _ _ _).symm

/-- What is handed out at the end of a visit lies on the stack from the top down to the node. -/
theorem finish {v : Fin n} (hv : v ∈ s.stack) :
    Agrees (if s.index.get v = some (s.lowlink.get v) then Search.handOut v s else s)
      (t.finish v) := by
  unfold Descent.finish
  rw [h.index, h.lowlink]
  split
  · obtain ⟨above, below, hv', hstack⟩ := h.booked.exists_split hv
    have hnodup := h.booked.nodup
    rw [hstack] at hnodup
    have hpass : ∀ u ∈ above, decide (u ≠ v) = true := fun u hu =>
      decide_eq_true fun heq => hv' (heq ▸ hu)
    have htop : (above ++ [v]).Nodup := by
      rw [List.append_cons] at hnodup
      exact (List.nodup_append.mp hnodup).1
    have hstack' : t.stack = above ++ v :: below := h.stack.symm.trans hstack
    have hbooked := Search.booked_handOut h.booked hv' hstack
    rw [Search.handOut_eq hv' hstack] at hbooked ⊢
    refine ⟨hbooked, h.index, h.lowlink, ?_, h.nextIndex, ?_⟩
    · show below = (t.stack.dropWhile (· ≠ v)).tail
      rw [hstack', List.dropWhile_append_of_pos hpass]
      simp
    · show s.components ++ [Search.ascending (above ++ [v])] = t.components ++
        [(t.stack.takeWhile (· ≠ v) ++ [v]).mergeSort fun a b => decide (a ≤ b)]
      rw [h.components, Search.ascending_eq_mergeSort htop, hstack',
        List.takeWhile_append_of_pos hpass]
      simp
  · exact h

end Descent.Agrees

namespace Search

variable {g : Digraph n} {s : Search n}

theorem explore_of_nil (h : s.work = []) : explore g s = s := by
  rw [explore, dif_pos h]

theorem explore_step (h : s.work ≠ []) : explore g s = explore g (step g s) := by
  rw [explore, dif_neg h]

/-- A step visits the node of the top frame before anything else. -/
theorem explore_visit {v : Fin n} {k : Nat} {below : List (Fin n × Nat)}
    (h : s.work = (v, k) :: below) : explore g s = explore g (visit v s) := by
  have h' : (visit v s).work = (v, k) :: below := by rw [work_visit, h]
  have hne : s.work ≠ [] := by rw [h]; exact List.cons_ne_nil _ _
  have hne' : (visit v s).work ≠ [] := by rw [h']; exact List.cons_ne_nil _ _
  have hagain : visit v (visit v s) = visit v s := by
    obtain ⟨i, hi⟩ := Option.ne_none_iff_exists'.mp (index_visit_ne_none (s := s) v v (Or.inr rfl))
    exact visit_of_isSome hi
  rw [explore_step hne, explore_step hne', step_of_work h, step_of_work h', hagain]

/-- A frame without further successors ends the visit to its node. -/
theorem explore_leave (g : Digraph n) {s : Search n} {t : Descent n} {v : Fin n} {k : Nat}
    {below : List (Fin n × Nat)} (h : Descent.Agrees s t) (hwork : s.work = (v, k) :: below)
    (hv : v ∈ s.stack) (hu : (g.out v)[k]? = none) :
    ∃ s', Descent.Agrees s' (t.finish v) ∧
      explore g s = explore g (propagate v { s' with work := below }) := by
  have hne : s.work ≠ [] := by rw [hwork]; exact List.cons_ne_nil _ _
  rw [explore_step hne, step_of_work hwork, visit_of_isSome (h.booked.index_eq hv), hu]
  refine ⟨_, h.finish hv, ?_⟩
  simp only
  unfold leave
  rw [handOut_withWork]
  simp only
  split <;> rfl

/-- **A frame does what a call does.**  From a state with the frame `(v, k)` on top, the search
deals with the successors of `v` from the `k`-th on as the recursion does, ends the visit to `v` as
the recursion does, and then goes on with the frames below. -/
theorem explore_frame (g : Digraph n) {s : Search n} {t : Descent n} {v : Fin n} {k : Nat}
    {below : List (Fin n × Nat)} (h : Descent.Agrees s t) (hwork : s.work = (v, k) :: below)
    (hv : v ∈ s.stack) :
    ∃ s', Descent.Agrees s' ((Descent.visitSuccessors g v ((g.out v).drop k) t).1.finish v) ∧
      explore g s = explore g (propagate v { s' with work := below }) := by
  cases hu : (g.out v)[k]? with
  | none =>
    rw [List.drop_eq_nil_iff.mpr (List.getElem?_eq_none_iff.mp hu), Descent.visitSuccessors_nil]
    exact explore_leave g h hwork hv hu
  | some u =>
    have hne : s.work ≠ [] := by rw [hwork]; exact List.cons_ne_nil _ _
    obtain ⟨hk, hget⟩ := List.getElem?_eq_some_iff.mp hu
    rw [explore_step hne, step_of_work hwork, visit_of_isSome (h.booked.index_eq hv), hu,
      List.drop_eq_getElem_cons hk, hget]
    simp only
    unfold follow
    simp only
    cases hi : s.index.get u with
    | none =>
      -- The frame of `u` does what the call for `u` does, and its low link then counts for `v`.
      have hi' : t.index u = none := (h.index u).symm.trans hi
      have hopened := (h.withWork ((u, 0) :: (v, k + 1) :: below)).enter hi
      obtain ⟨s₁, h₁, hcall⟩ := explore_frame g hopened (work_visit u _)
        (hopened.stack ▸ List.mem_cons_self)
      rw [List.drop_zero, ← Descent.visit_val g hi'] at h₁
      have hv₁ : v ∈ s₁.stack := by
        rw [h₁.stack]
        exact (Descent.visit g u t hi').2.stack_suffix.subset (h.stack ▸ hv)
      have hlowered := (h₁.lower v (s₁.lowlink.get u)).withWork ((v, k + 1) :: below)
      rw [h₁.lowlink] at hlowered
      obtain ⟨s₂, h₂, hrest⟩ := explore_frame g hlowered rfl hv₁
      rw [Descent.visitSuccessors_of_eq_none g v hi']
      refine ⟨s₂, h₂, (explore_visit rfl).trans (hcall.trans ?_)⟩
      rw [← hrest, ← h₁.lowlink]
      rfl
    | some i =>
      rw [Descent.visitSuccessors_of_eq_some g v ((h.index u).symm.trans hi)]
      by_cases hstack : u ∈ s.stack
      · rw [if_pos (h.stack ▸ hstack)]
        obtain ⟨s₁, h₁, hrest⟩ := explore_frame g
          ((h.lower v i).withWork ((v, k + 1) :: below)) rfl hv
        refine ⟨s₁, h₁, ?_⟩
        rw [← hrest]
        simp only [(h.booked.flags u).mpr hstack, if_true]
        rfl
      · rw [if_neg (h.stack ▸ hstack)]
        obtain ⟨s₁, h₁, hrest⟩ := explore_frame g (h.withWork ((v, k + 1) :: below)) rfl hv
        refine ⟨s₁, h₁, ?_⟩
        rw [← hrest]
        simp only [mt (h.booked.flags u).mp hstack]
        rfl
termination_by (t.unvisited, (g.out v).length - k)
decreasing_by
  · exact Prod.Lex.left _ _ (Descent.unvisited_enter hi')
  · rcases (Descent.visit g u t hi').2.unvisited_le.lt_or_eq with hlt | heq
    · exact Prod.Lex.left _ _ hlt
    · rw [show Descent.unvisited (Descent.lower v _ _) = _ from heq]
      exact Prod.Lex.right _ (by omega)
  · exact Prod.Lex.right _ (by omega)
  · exact Prod.Lex.right _ (by omega)

/-- Exploring from a root is visiting it. -/
theorem agrees_exploreFrom (g : Digraph n) {s : Search n} {t : Descent n} (h : Descent.Agrees s t)
    (roots : List (Fin n)) :
    Descent.Agrees (roots.foldl (exploreFrom g) s) (Descent.visitAll g roots t) := by
  induction roots generalizing s t with
  | nil => exact h
  | cons root roots ih =>
    rw [List.foldl_cons, exploreFrom]
    cases hi : s.index.get root with
    | none =>
      have hi' : t.index root = none := (h.index root).symm.trans hi
      have hopened := (h.withWork [(root, 0)]).enter hi
      obtain ⟨s₁, h₁, hcall⟩ := explore_frame g hopened (work_visit root _)
        (hopened.stack ▸ List.mem_cons_self)
      rw [List.drop_zero, ← Descent.visit_val g hi'] at h₁
      rw [Descent.visitAll_of_eq_none g roots hi']
      refine ih ?_
      simp only
      rw [explore_visit rfl, hcall, explore_of_nil rfl]
      exact h₁.withWork []
    | some i =>
      rw [Descent.visitAll_of_eq_some g roots ((h.index root).symm.trans hi)]
      exact ih h

end Search

/-- **The two searches hand out the same components in the same order.** -/
theorem Digraph.components_eq_descend (g : Digraph n) : g.components = g.descend := by
  have hstart : Descent.Agrees (Search.initial n) (Descent.initial n) :=
    ⟨(Search.invariant_initial g).booked, fun v => Vector.getElem_replicate v.isLt,
      fun v => Vector.getElem_replicate v.isLt, rfl, rfl, rfl⟩
  exact (Search.agrees_exploreFrom g hstart (List.finRange n)).components

end Datalog
