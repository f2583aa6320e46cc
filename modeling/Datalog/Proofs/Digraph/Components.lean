import Datalog.Proofs.Digraph.Search
import Mathlib.Order.Nat

/-!
# The components that the search hands out

`Digraph.components` gives the strongly connected components of a graph, every component after all
components that it can reach (`Digraph.components_spec`).

## The invariant

Cut the component stack below every node that has a frame on the work stack.  Each `Segment` then
consists of such a node and of the finished nodes above it, and three things are true of it.

* All its nodes reach each other.
* The low link of its node is the index of some node on the stack that can be reached from it.
* Every edge that has been dealt with leads to a node that has been handed out, or to a node on the
  stack whose index is not below the low link.

When a node is finished and its low link is its own index, no edge leads from its segment to nodes
lower on the stack, so the segment is a component.  Otherwise the node reaches a node lower on the
stack.  That one belongs to a segment below, whose node reaches the next frame, so the finished
segment becomes a part of the segment below it.

A step begins by visiting the node of the top frame.  The invariant is stated for the state after
this visit (`Search.settle`), so that every frame belongs to a node on the stack.
-/

namespace Datalog

variable {n : Nat}

/-- Lists of nodes are strongly connected components, and none reaches a later one. -/
structure Digraph.Splits (g : Digraph n) (components : List (List (Fin n))) : Prop where
  nonempty : ∀ c ∈ components, c ≠ []
  nodup : ∀ c ∈ components, c.Nodup
  mem_iff : ∀ c ∈ components, ∀ u ∈ c, ∀ v, v ∈ c ↔ g.Reaches u v ∧ g.Reaches v u
  sorted : components.Pairwise fun c d => ∀ u ∈ c, ∀ v ∈ d, ¬ g.Reaches u v

/-- A node with a frame on the work stack, and the finished nodes above it. -/
structure Segment (n : Nat) where
  /-- The node of the frame. -/
  node : Fin n
  /-- How many of its edges have been dealt with. -/
  dealt : Nat
  /-- The finished nodes above it on the stack. -/
  finished : List (Fin n)

namespace Segment

/-- The frame on the work stack. -/
def frame (t : Segment n) : Fin n × Nat := (t.node, t.dealt)

/-- The part of the stack that belongs to the frame. -/
def nodes (t : Segment n) : List (Fin n) := t.finished ++ [t.node]

/-- Where the edges lead that have been dealt with. -/
def targets (g : Digraph n) (t : Segment n) : List (Fin n) :=
  t.finished.flatMap g.out ++ (g.out t.node).take t.dealt

theorem mem_nodes {t : Segment n} {x : Fin n} : x ∈ t.nodes ↔ x ∈ t.finished ∨ x = t.node := by
  simp [nodes]

theorem node_mem_nodes (t : Segment n) : t.node ∈ t.nodes := mem_nodes.mpr (Or.inr rfl)

theorem node_mem_flatMap {t : Segment n} {parts : List (Segment n)} (ht : t ∈ parts) :
    t.node ∈ parts.flatMap nodes := List.mem_flatMap.mpr ⟨t, ht, t.node_mem_nodes⟩

end Segment

namespace Search

variable {g : Digraph n} {s : Search n} {parts rest : List (Segment n)} {t : Segment n}

/-- Let the low link of a node fall to a value. -/
def lowered (s : Search n) (v : Fin n) (value : Nat) : Search n :=
  { s with lowlink := s.lowlink.set v (min (s.lowlink.get v) value) v.isLt }

theorem lowlink_lowered (s : Search n) (v : Fin n) (value : Nat) (u : Fin n) :
    (s.lowered v value).lowlink.get u =
      if u = v then min (s.lowlink.get v) value else s.lowlink.get u := vector_get_set _ _ _ _

/-- The node has been handed out, or it is on the stack and its index is not below the bound. -/
def Within (s : Search n) (bound : Nat) (w : Fin n) : Prop :=
  w ∈ s.done ∨ (w ∈ s.stack ∧ bound ≤ s.rank w)

theorem Within.mono {bound bound' : Nat} {w : Fin n} (h : s.Within bound w) (hle : bound' ≤ bound) :
    s.Within bound' w := h.imp_right fun hw => ⟨hw.1, hle.trans hw.2⟩

end Search

/-- What is true of a segment. -/
structure Segment.Sound (g : Digraph n) (s : Search n) (t : Segment n) : Prop where
  connected : ∀ x ∈ t.finished, g.Reaches t.node x ∧ g.Reaches x t.node
  low_le : s.lowlink.get t.node ≤ s.rank t.node
  low_reached : ∃ w ∈ s.stack, s.rank w = s.lowlink.get t.node ∧ g.Reaches t.node w
  covered : ∀ w ∈ t.targets g, s.Within (s.lowlink.get t.node) w

theorem Segment.Sound.withWork {g : Digraph n} {s : Search n} {t : Segment n} (h : t.Sound g s)
    (work : List (Fin n × Nat)) : t.Sound g { s with work := work } :=
  ⟨h.connected, h.low_le, h.low_reached, h.covered⟩

namespace Search

variable {g : Digraph n} {s : Search n} {parts rest : List (Segment n)} {t : Segment n}

/-- The invariant of the search, after the node of the top frame has been visited. -/
structure Invariant (g : Digraph n) (s : Search n) (parts : List (Segment n)) : Prop where
  booked : s.Booked
  work : s.work = parts.map Segment.frame
  stack : s.stack = parts.flatMap Segment.nodes
  chain : (parts.map Segment.node).Pairwise fun v u => g.Reaches u v
  sound : ∀ t ∈ parts, t.Sound g s
  closed : ∀ u ∈ s.done, ∀ v ∈ g.out u, v ∈ s.done
  splits : g.Splits s.components

namespace Invariant

theorem mem_stack (h : Invariant g s parts) (ht : t ∈ parts) {x : Fin n} (hx : x ∈ t.nodes) :
    x ∈ s.stack := by
  rw [h.stack]
  exact List.mem_flatMap.mpr ⟨t, ht, hx⟩

theorem node_mem_stack (h : Invariant g s parts) (ht : t ∈ parts) : t.node ∈ s.stack :=
  h.mem_stack ht t.node_mem_nodes

theorem stack_eq (h : Invariant g s (t :: rest)) :
    s.stack = t.finished ++ t.node :: rest.flatMap Segment.nodes := by
  rw [h.stack, List.flatMap_cons, Segment.nodes, List.append_assoc]
  rfl

/-- The nodes of a segment reach each other. -/
theorem reaches_of_mem (h : Invariant g s parts) (ht : t ∈ parts) {x : Fin n} (hx : x ∈ t.nodes) :
    g.Reaches t.node x ∧ g.Reaches x t.node := by
  rcases Segment.mem_nodes.mp hx with hx | rfl
  · exact (h.sound t ht).connected x hx
  · exact ⟨Relation.ReflTransGen.refl, Relation.ReflTransGen.refl⟩

theorem node_notMem_finished (h : Invariant g s (t :: rest)) : t.node ∉ t.finished := by
  have hnodup := h.booked.nodup
  rw [h.stack, List.flatMap_cons, Segment.nodes] at hnodup
  have hnode := (List.nodup_append.mp (List.nodup_append.mp hnodup).1).2.2
  exact fun hmem => hnode _ hmem _ (List.mem_singleton.mpr rfl) rfl

/-- Segments lower on the stack have lower indices. -/
theorem rank_lt (h : Invariant g s (t :: rest)) {x w : Fin n} (hx : x ∈ t.nodes)
    (hw : w ∈ rest.flatMap Segment.nodes) : s.rank w < s.rank x := by
  have hsorted := h.booked.sorted
  rw [h.stack, List.flatMap_cons] at hsorted
  exact (List.pairwise_append.mp hsorted).2.2 x hx w hw

theorem node_ne (h : Invariant g s (t :: rest)) {t' : Segment n} (ht' : t' ∈ rest) :
    t'.node ≠ t.node := by
  intro heq
  have hlt := h.rank_lt t.node_mem_nodes (Segment.node_mem_flatMap ht')
  rw [heq] at hlt
  exact Nat.lt_irrefl _ hlt

/-! ## What a step may do -/

/-- A visit to another node changes nothing for a segment. -/
theorem sound_visit (h : Invariant g s parts) {u : Fin n} (hu : s.index.get u = none)
    (ht : t ∈ parts) : t.Sound g (visit u s) := by
  have hrank : ∀ x ∈ s.stack, (visit u s).rank x = s.rank x := by
    intro x hx
    rw [rank_visit hu, if_neg (ne_of_mem_stack hu h.booked hx)]
  have hnode := h.node_mem_stack ht
  have hlow : (visit u s).lowlink.get t.node = s.lowlink.get t.node := by
    rw [lowlink_visit hu, if_neg (ne_of_mem_stack hu h.booked hnode)]
  have hold := h.sound t ht
  obtain ⟨w, hw, hrankw, hreachw⟩ := hold.low_reached
  refine ⟨hold.connected, ?_, ⟨w, ?_, ?_, hreachw⟩, fun x hx => ?_⟩
  · rw [hlow, hrank _ hnode]
    exact hold.low_le
  · rw [stack_visit hu]
    exact List.mem_cons_of_mem u hw
  · rw [hrank w hw, hlow, hrankw]
  · unfold Within done
    rw [components_visit hu, stack_visit hu, hlow]
    rcases hold.covered x hx with hx | ⟨hx, hle⟩
    · exact Or.inl hx
    · refine Or.inr ⟨List.mem_cons_of_mem u hx, ?_⟩
      rw [hrank x hx]
      exact hle

/-- The segment of a node that has just been visited. -/
theorem sound_visited (g : Digraph n) {u : Fin n} (hu : s.index.get u = none) :
    Segment.Sound g (visit u s) ⟨u, 0, []⟩ := by
  have hself : (visit u s).lowlink.get u = (visit u s).rank u := by
    rw [lowlink_visit hu, rank_visit hu, if_pos rfl, if_pos rfl]
  refine ⟨fun x hx => absurd hx List.not_mem_nil, hself.le, ⟨u, ?_, hself.symm, .refl⟩,
    fun w hw => absurd hw List.not_mem_nil⟩
  rw [stack_visit hu]
  exact List.mem_cons_self

/-- A node is visited that all frames reach. -/
theorem push (h : Invariant g s parts) {u : Fin n} (hu : s.index.get u = none)
    (hreach : ∀ t ∈ parts, g.Reaches t.node u) :
    Invariant g { visit u s with work := (u, 0) :: s.work } (⟨u, 0, []⟩ :: parts) := by
  have hdone : (visit u s).done = s.done := congrArg List.flatten (components_visit hu)
  refine ⟨(booked_visit hu h.booked).withWork _, ?_, ?_, ?_, ?_, ?_, ?_⟩
  · exact congrArg (List.cons (u, 0)) h.work
  · show (visit u s).stack = _
    rw [stack_visit hu, h.stack]
    rfl
  · refine List.pairwise_cons.mpr ⟨fun v hv => ?_, h.chain⟩
    obtain ⟨t, ht, rfl⟩ := List.mem_map.mp hv
    exact hreach t ht
  · intro t ht
    rcases List.mem_cons.mp ht with rfl | ht
    · exact (sound_visited g hu).withWork _
    · exact (h.sound_visit hu ht).withWork _
  · show ∀ v ∈ (visit u s).done, ∀ w ∈ g.out v, w ∈ (visit u s).done
    rw [hdone]
    exact h.closed
  · show g.Splits (visit u s).components
    rw [components_visit hu]
    exact h.splits

/-- The next edge of a frame has been dealt with. -/
theorem deal (above : List (Segment n)) (h : Invariant g s (above ++ t :: rest)) {w : Fin n}
    (hw : (g.out t.node)[t.dealt]? = some w) (hwithin : s.Within (s.lowlink.get t.node) w) :
    Invariant g
      { s with work := above.map Segment.frame ++ (t.node, t.dealt + 1) :: rest.map Segment.frame }
      (above ++ { t with dealt := t.dealt + 1 } :: rest) := by
  refine ⟨h.booked.withWork _, ?_, ?_, ?_, ?_, h.closed, h.splits⟩
  · rw [List.map_append]
    rfl
  · show s.stack = _
    rw [h.stack, List.flatMap_append, List.flatMap_append, List.flatMap_cons, List.flatMap_cons]
    rfl
  · have hchain := h.chain
    rw [List.map_append] at hchain ⊢
    exact hchain
  · intro t' ht'
    rcases List.mem_append.mp ht' with ht' | ht'
    · exact (h.sound t' (List.mem_append_left _ ht')).withWork _
    · rcases List.mem_cons.mp ht' with rfl | ht'
      · have hold := h.sound t (List.mem_append_right _ List.mem_cons_self)
        refine ⟨hold.connected, hold.low_le, hold.low_reached, fun x hx => ?_⟩
        have hmem : x ∈ t.targets g ∨ x = w := by
          unfold Segment.targets at hx ⊢
          simp only [List.take_add_one, hw, List.mem_append, Option.toList_some,
            List.mem_singleton] at hx ⊢
          tauto
        rcases hmem with hx | rfl
        · exact hold.covered x hx
        · exact hwithin
      · exact (h.sound t' (List.mem_append_right _ (List.mem_cons_of_mem t ht'))).withWork _

/-- A low link may fall to the index of any node on the stack that is reached. -/
theorem lower (above : List (Segment n)) (h : Invariant g s (above ++ t :: rest)) {w : Fin n}
    (hw : w ∈ s.stack) (hreach : g.Reaches t.node w) :
    Invariant g (s.lowered t.node (s.rank w)) (above ++ t :: rest) := by
  refine ⟨h.booked.withLowlink _, h.work, h.stack, h.chain, ?_, h.closed, h.splits⟩
  intro t' ht'
  have hold := h.sound t' ht'
  refine ⟨hold.connected, ?_, ?_, fun x hx => ?_⟩
  · show (s.lowered t.node (s.rank w)).lowlink.get t'.node ≤ s.rank t'.node
    rw [lowlink_lowered]
    split
    · next heq =>
      rw [← heq]
      exact (Nat.min_le_left _ _).trans hold.low_le
    · exact hold.low_le
  · show ∃ x ∈ s.stack, s.rank x = (s.lowered t.node (s.rank w)).lowlink.get t'.node ∧
      g.Reaches t'.node x
    rw [lowlink_lowered]
    split
    · next heq =>
      rw [← heq]
      rcases Nat.le_total (s.lowlink.get t'.node) (s.rank w) with hle | hle
      · rw [Nat.min_eq_left hle]
        exact hold.low_reached
      · rw [Nat.min_eq_right hle]
        exact ⟨w, hw, rfl, heq ▸ hreach⟩
    · exact hold.low_reached
  · refine (hold.covered x hx).mono ?_
    rw [lowlink_lowered]
    split
    · next heq =>
      rw [← heq]
      exact Nat.min_le_left _ _
    · exact le_refl _

/-! ## Leaving a node -/

/-- All edges of a finished segment have been dealt with. -/
theorem mem_targets {x w : Fin n} (hall : (g.out t.node)[t.dealt]? = none) (hx : x ∈ t.nodes)
    (hw : w ∈ g.out x) : w ∈ t.targets g := by
  unfold Segment.targets
  rcases Segment.mem_nodes.mp hx with hx | rfl
  · exact List.mem_append_left _ (List.mem_flatMap.mpr ⟨x, hx, hw⟩)
  · refine List.mem_append_right _ ?_
    rw [List.take_of_length_le (List.getElem?_eq_none_iff.mp hall)]
    exact hw

theorem rank_node_le (h : Invariant g s (t :: rest)) {x : Fin n} (hx : x ∈ t.nodes) :
    s.rank t.node ≤ s.rank x := by
  have hsorted := h.booked.sorted
  rw [h.stack, List.flatMap_cons, Segment.nodes] at hsorted
  rcases Segment.mem_nodes.mp hx with hx | rfl
  · have habove := (List.pairwise_append.mp (List.pairwise_append.mp hsorted).1).2.2
    exact (habove x hx t.node (List.mem_singleton.mpr rfl)).le
  · exact le_refl _

theorem mem_stack_iff (h : Invariant g s (t :: rest)) {x : Fin n} :
    x ∈ s.stack ↔ x ∈ t.nodes ∨ x ∈ rest.flatMap Segment.nodes := by
  rw [h.stack, List.flatMap_cons, List.mem_append]

/-- The top segment becomes a part of the one below it. -/
theorem absorb {p : Segment n} (h : Invariant g s (t :: p :: rest))
    (hall : (g.out t.node)[t.dealt]? = none)
    (hlow : s.lowlink.get p.node ≤ s.lowlink.get t.node) (hreach : g.Reaches t.node p.node) :
    Invariant g { s with work := (p :: rest).map Segment.frame }
      ({ p with finished := t.nodes ++ p.finished } :: rest) := by
  have hchain := List.pairwise_cons.mp h.chain
  have hback : g.Reaches p.node t.node := hchain.1 p.node List.mem_cons_self
  refine ⟨h.booked.withWork _, rfl, ?_, hchain.2, ?_, h.closed, h.splits⟩
  · show s.stack = _
    rw [h.stack, List.flatMap_cons, List.flatMap_cons, List.flatMap_cons]
    unfold Segment.nodes
    simp only [List.append_assoc]
  · intro t' ht'
    rcases List.mem_cons.mp ht' with rfl | ht'
    · have hp := h.sound p (List.mem_cons_of_mem t List.mem_cons_self)
      have ht := h.sound t List.mem_cons_self
      refine ⟨fun x hx => ?_, hp.low_le, hp.low_reached, fun w hw => ?_⟩
      · rcases List.mem_append.mp hx with hx | hx
        · obtain ⟨hto, hfrom⟩ := h.reaches_of_mem List.mem_cons_self hx
          exact ⟨hback.trans hto, hfrom.trans hreach⟩
        · exact hp.connected x hx
      · have hmem : w ∈ t.nodes.flatMap g.out ∨ w ∈ p.targets g := by
          unfold Segment.targets at hw ⊢
          simp only [List.flatMap_append, List.mem_append] at hw ⊢
          tauto
        rcases hmem with hw | hw
        · obtain ⟨x, hx, hw⟩ := List.mem_flatMap.mp hw
          exact (ht.covered w (mem_targets hall hx hw)).mono hlow
        · exact hp.covered w hw
    · exact (h.sound t' (List.mem_cons_of_mem t (List.mem_cons_of_mem p ht'))).withWork _

/-- No edge leaves what has been handed out together with a finished segment whose node has its own
index as its low link. -/
theorem mem_of_mem_out (h : Invariant g s (t :: rest)) (hall : (g.out t.node)[t.dealt]? = none)
    (hroot : s.lowlink.get t.node = s.rank t.node) {u v : Fin n} (hu : u ∈ s.done ∨ u ∈ t.nodes)
    (hv : v ∈ g.out u) : v ∈ s.done ∨ v ∈ t.nodes := by
  rcases hu with hu | hu
  · exact Or.inl (h.closed u hu v hv)
  · rcases (h.sound t List.mem_cons_self).covered v (mem_targets hall hu hv) with hv | ⟨hv, hle⟩
    · exact Or.inl hv
    · refine Or.inr ((h.mem_stack_iff.mp hv).resolve_right fun hbelow => ?_)
      have hlt := h.rank_lt t.node_mem_nodes hbelow
      omega

/-- Such a segment is a component. -/
theorem splits_append (h : Invariant g s (t :: rest)) (hall : (g.out t.node)[t.dealt]? = none)
    (hroot : s.lowlink.get t.node = s.rank t.node) :
    g.Splits (s.components ++ [ascending t.nodes]) := by
  have hnot : ∀ u ∈ s.done, ∀ v ∈ t.nodes, ¬ g.Reaches u v := by
    intro u hu v hv hreach
    have hmem := hreach.mem_of_closed (A := {x | x ∈ s.done}) h.closed hu
    exact h.booked.disjoint v (h.mem_stack List.mem_cons_self hv) hmem
  refine ⟨fun c hc => ?_, fun c hc => ?_, fun c hc => ?_, ?_⟩
  · rcases List.mem_append.mp hc with hc | hc
    · exact h.splits.nonempty c hc
    · rw [List.mem_singleton.mp hc]
      exact List.ne_nil_of_mem (mem_ascending.mpr t.node_mem_nodes)
  · rcases List.mem_append.mp hc with hc | hc
    · exact h.splits.nodup c hc
    · rw [List.mem_singleton.mp hc]
      exact nodup_ascending _
  · rcases List.mem_append.mp hc with hc | hc
    · exact h.splits.mem_iff c hc
    · rw [List.mem_singleton.mp hc]
      intro u hu v
      rw [mem_ascending] at hu ⊢
      have hnode := h.reaches_of_mem List.mem_cons_self hu
      constructor
      · intro hv
        have hnode' := h.reaches_of_mem List.mem_cons_self hv
        exact ⟨hnode.2.trans hnode'.1, hnode'.2.trans hnode.1⟩
      · rintro ⟨hto, hfrom⟩
        have hmem := hto.mem_of_closed (A := {x | x ∈ s.done ∨ x ∈ t.nodes})
          (fun a ha b hb => h.mem_of_mem_out hall hroot ha hb) (Or.inr hu)
        exact hmem.resolve_left fun hv => hnot v hv u hu hfrom
  · refine List.pairwise_append.mpr ⟨h.splits.sorted, List.pairwise_singleton _ _, ?_⟩
    intro c hc d hd u hu v hv
    rw [List.mem_singleton.mp hd, mem_ascending] at hv
    exact hnot u (List.mem_flatten.mpr ⟨c, hc, hu⟩) v hv

theorem handOut (h : Invariant g s (t :: rest)) (hall : (g.out t.node)[t.dealt]? = none)
    (hroot : s.lowlink.get t.node = s.rank t.node) :
    Invariant g { Search.handOut t.node s with work := rest.map Segment.frame } rest := by
  have hbooked := booked_handOut h.booked h.node_notMem_finished h.stack_eq
  have heq := handOut_eq h.node_notMem_finished h.stack_eq
  rw [heq] at hbooked ⊢
  have hdone : ∀ x, x ∈ (s.components ++ [ascending t.nodes]).flatten ↔
      x ∈ s.done ∨ x ∈ t.nodes := by
    intro x
    rw [List.flatten_append, List.mem_append, List.flatten_singleton, mem_ascending]
    rfl
  refine ⟨hbooked.withWork _, rfl, rfl, (List.pairwise_cons.mp h.chain).2, ?_, ?_,
    h.splits_append hall hroot⟩
  · intro t' ht'
    have hold := h.sound t' (List.mem_cons_of_mem t ht')
    obtain ⟨w, hw, hrank, hreach⟩ := hold.low_reached
    refine ⟨hold.connected, hold.low_le, ⟨w, ?_, hrank, hreach⟩, fun x hx => ?_⟩
    · refine (h.mem_stack_iff.mp hw).resolve_left fun htop => ?_
      have hlt := h.rank_lt htop (Segment.node_mem_flatMap ht')
      have hle := hold.low_le
      omega
    · show x ∈ (s.components ++ [ascending t.nodes]).flatten ∨
        (x ∈ rest.flatMap Segment.nodes ∧ s.lowlink.get t'.node ≤ s.rank x)
      rw [hdone]
      rcases hold.covered x hx with hx | ⟨hx, hle⟩
      · exact Or.inl (Or.inl hx)
      · rcases h.mem_stack_iff.mp hx with hx | hx
        · exact Or.inl (Or.inr hx)
        · exact Or.inr ⟨hx, hle⟩
  · intro u hu v hv
    exact (hdone v).mpr (h.mem_of_mem_out hall hroot ((hdone u).mp hu) hv)

/-- A finished node that does not end a component reaches the node of the segment below. -/
theorem exists_below (h : Invariant g s (t :: rest))
    (hroot : s.lowlink.get t.node ≠ s.rank t.node) :
    ∃ p rest', rest = p :: rest' ∧ ∃ w ∈ s.stack, s.rank w = s.lowlink.get t.node ∧
      g.Reaches t.node w ∧ g.Reaches w p.node := by
  have hsound := h.sound t List.mem_cons_self
  obtain ⟨w, hw, hrank, hreach⟩ := hsound.low_reached
  have hbelow : w ∈ rest.flatMap Segment.nodes := by
    refine (h.mem_stack_iff.mp hw).resolve_left fun htop => ?_
    have hle := h.rank_node_le htop
    have hlow := hsound.low_le
    omega
  obtain ⟨r, hr, hwr⟩ := List.mem_flatMap.mp hbelow
  obtain ⟨-, hto⟩ := h.reaches_of_mem (List.mem_cons_of_mem t hr) hwr
  cases rest with
  | nil => exact absurd hr List.not_mem_nil
  | cons p rest' =>
    refine ⟨p, rest', rfl, w, hw, hrank, hreach, ?_⟩
    rcases List.mem_cons.mp hr with rfl | hr
    · exact hto
    · have hchain := (List.pairwise_cons.mp (List.pairwise_cons.mp h.chain).2).1
      exact hto.trans (hchain r.node (List.mem_map_of_mem hr))

end Invariant

/-! ## Steps -/

/-- The state once the node of the top frame has been visited. -/
def settle (s : Search n) : Search n :=
  match s.work with
  | [] => s
  | (v, _) :: _ => visit v s

theorem settle_of_work {v : Fin n} {k : Nat} {below : List (Fin n × Nat)}
    (h : s.work = (v, k) :: below) : settle s = visit v s := by
  unfold settle
  rw [h]

theorem visit_withWork (v : Fin n) (s : Search n) (work : List (Fin n × Nat)) :
    visit v { s with work := work } = { visit v s with work := work } := by
  unfold visit
  simp only
  split <;> rfl

theorem handOut_withWork (v : Fin n) (s : Search n) (work : List (Fin n × Nat)) :
    Search.handOut v { s with work := work } = { Search.handOut v s with work := work } := by
  unfold Search.handOut
  rcases splitThrough v s.stack with ⟨members, below⟩
  rfl

theorem step_of_work {v : Fin n} {k : Nat} {below : List (Fin n × Nat)}
    (h : s.work = (v, k) :: below) :
    step g s =
      match (g.out v)[k]? with
      | some u => follow v u { visit v s with work := (v, k + 1) :: below }
      | none => leave v { visit v s with work := below } := by
  unfold step
  rw [h]
  exact congrArg (fun t : Search n => match (g.out v)[k]? with
    | some u => follow v u { t with work := (v, k + 1) :: t.work }
    | none => leave v t) (visit_withWork v s below)

/-- Every frame belongs to a visited node, so nothing is left to visit. -/
theorem Invariant.settle_eq (h : Invariant g s parts) : settle s = s := by
  unfold settle
  rw [h.work]
  cases parts with
  | nil => rfl
  | cons t rest =>
    exact visit_of_isSome (h.booked.index_eq (h.node_mem_stack List.mem_cons_self))

theorem Invariant.settled (h : Invariant g s parts) : Invariant g (settle s) parts := by
  rw [h.settle_eq]
  exact h

theorem lowered_of_le {v : Fin n} {value : Nat} (h : s.lowlink.get v ≤ value) :
    s.lowered v value = s := by
  unfold lowered
  rw [Nat.min_eq_left h]
  congr 1
  exact Vector.set_getElem_self v.isLt

/-- Following an edge of the top frame to a node that has not been visited. -/
theorem invariant_follow_fresh {u : Fin n} (h : Invariant g s (t :: rest))
    (hu : (g.out t.node)[t.dealt]? = some u) (hi : s.index.get u = none) :
    Invariant g
      (visit u { s with work := (u, 0) :: (t.node, t.dealt + 1) :: rest.map Segment.frame })
      (⟨u, 0, []⟩ :: { t with dealt := t.dealt + 1 } :: rest) := by
  have hreach : g.Reaches t.node u := Digraph.reaches_of_mem_out (List.mem_of_getElem? hu)
  have hreaches : ∀ t' ∈ t :: rest, g.Reaches t'.node u := by
    intro t' ht'
    rcases List.mem_cons.mp ht' with rfl | ht'
    · exact hreach
    · have hchain := (List.pairwise_cons.mp h.chain).1
      exact (hchain t'.node (List.mem_map_of_mem ht')).trans hreach
  have hwithin : Within { visit u s with work := (u, 0) :: s.work }
      ((visit u s).lowlink.get t.node) u := by
    have hnode := h.node_mem_stack List.mem_cons_self
    refine Or.inr ⟨?_, ?_⟩
    · show u ∈ (visit u s).stack
      rw [stack_visit hi]
      exact List.mem_cons_self
    · show _ ≤ (visit u s).rank u
      rw [lowlink_visit hi, rank_visit hi, if_neg (ne_of_mem_stack hi h.booked hnode), if_pos rfl]
      have hlow := (h.sound t List.mem_cons_self).low_le
      have hrank := h.booked.rank_lt hnode
      omega
  have hdeal := Invariant.deal [⟨u, 0, []⟩] (h.push hi hreaches) hu hwithin
  rw [visit_withWork]
  exact hdeal

/-- Following an edge of the top frame to a node on the stack. -/
theorem invariant_follow_stacked {u : Fin n} (h : Invariant g s (t :: rest))
    (hu : (g.out t.node)[t.dealt]? = some u) (hstack : u ∈ s.stack) :
    Invariant g
      { s.lowered t.node (s.rank u) with work := (t.node, t.dealt + 1) :: rest.map Segment.frame }
      ({ t with dealt := t.dealt + 1 } :: rest) := by
  have hreach : g.Reaches t.node u := Digraph.reaches_of_mem_out (List.mem_of_getElem? hu)
  have hwithin : (s.lowered t.node (s.rank u)).Within
      ((s.lowered t.node (s.rank u)).lowlink.get t.node) u := by
    refine Or.inr ⟨hstack, ?_⟩
    rw [lowlink_lowered, if_pos rfl]
    exact Nat.min_le_right _ _
  exact Invariant.deal [] (h.lower [] hstack hreach) hu hwithin

/-- Following an edge of the top frame. -/
theorem exists_invariant_follow {u : Fin n} (h : Invariant g s (t :: rest))
    (hu : (g.out t.node)[t.dealt]? = some u) :
    ∃ parts, Invariant g (settle (follow t.node u
      { s with work := (t.node, t.dealt + 1) :: rest.map Segment.frame })) parts := by
  unfold follow
  cases hi : s.index.get u with
  | none =>
    refine ⟨⟨u, 0, []⟩ :: { t with dealt := t.dealt + 1 } :: rest, ?_⟩
    simp only
    rw [settle_of_work rfl]
    exact invariant_follow_fresh h hu hi
  | some i =>
    have hvisited := (h.booked.visited u).mp (by rw [hi]; exact Option.some_ne_none i)
    simp only
    split
    · next hflag =>
      have hstack := (h.booked.flags u).mp hflag
      have hrank : s.rank u = i := by
        unfold rank
        rw [hi]
        rfl
      have hfollowed := invariant_follow_stacked h hu hstack
      rw [hrank] at hfollowed
      exact ⟨_, hfollowed.settled⟩
    · next hflag =>
      have hdone : u ∈ s.done :=
        hvisited.resolve_left fun hmem => hflag ((h.booked.flags u).mpr hmem)
      have hdeal := Invariant.deal [] h hu (Or.inl hdone)
      exact ⟨_, hdeal.settled⟩

/-- The node of the frame below has a smaller low link than a node that ends a component. -/
theorem propagate_handOut {p : Segment n} (h : Invariant g s (t :: p :: rest))
    (hroot : s.lowlink.get t.node = s.rank t.node) :
    propagate t.node { Search.handOut t.node s with work := (p :: rest).map Segment.frame } =
      { Search.handOut t.node s with work := (p :: rest).map Segment.frame } := by
  have hlow : (Search.handOut t.node s).lowlink = s.lowlink := by
    rw [handOut_eq h.node_notMem_finished h.stack_eq]
  have hle : s.lowlink.get p.node ≤ s.lowlink.get t.node := by
    have hp := (h.sound p (List.mem_cons_of_mem t List.mem_cons_self)).low_le
    have hlt := h.rank_lt t.node_mem_nodes (Segment.node_mem_flatMap List.mem_cons_self)
    omega
  refine lowered_of_le ?_
  show (Search.handOut t.node s).lowlink.get p.node ≤ (Search.handOut t.node s).lowlink.get t.node
  rw [hlow]
  exact hle

/-- Leaving the node of the top frame. -/
theorem exists_invariant_leave (h : Invariant g s (t :: rest))
    (hall : (g.out t.node)[t.dealt]? = none) :
    ∃ parts,
      Invariant g (settle (leave t.node { s with work := rest.map Segment.frame })) parts := by
  have hindex := h.booked.index_eq (h.node_mem_stack List.mem_cons_self)
  unfold leave
  by_cases hroot : s.lowlink.get t.node = s.rank t.node
  · rw [if_pos (by rw [hroot]; exact hindex)]
    have hout := h.handOut hall hroot
    rw [handOut_withWork]
    cases rest with
    | nil => exact ⟨[], hout.settled⟩
    | cons p rest =>
      rw [propagate_handOut h hroot]
      exact ⟨p :: rest, hout.settled⟩
  · rw [if_neg (by rw [hindex]; exact fun heq => hroot (Option.some.inj heq).symm)]
    obtain ⟨p, rest', rfl, w, hw, hrank, hto, hfrom⟩ := h.exists_below hroot
    have hback : g.Reaches p.node t.node :=
      (List.pairwise_cons.mp h.chain).1 p.node List.mem_cons_self
    have hlower := h.lower [t] hw (hback.trans hto)
    have hne : t.node ≠ p.node := (h.node_ne List.mem_cons_self).symm
    have habsorb := Invariant.absorb (t := t) (p := p) hlower hall (by
      rw [lowlink_lowered, lowlink_lowered, if_pos rfl, if_neg hne, hrank]
      exact Nat.min_le_right _ _) (hto.trans hfrom)
    rw [hrank] at habsorb
    exact ⟨_, habsorb.settled⟩

/-- **A step keeps the invariant.** -/
theorem exists_invariant_step (h : Invariant g (settle s) parts) (hwork : s.work ≠ []) :
    ∃ parts', Invariant g (settle (step g s)) parts' := by
  obtain ⟨⟨v, k⟩, below, hw⟩ := List.exists_cons_of_ne_nil hwork
  have hsettle := settle_of_work hw
  rw [hsettle] at h
  have hparts := h.work
  rw [work_visit, hw] at hparts
  cases parts with
  | nil => cases hparts
  | cons t rest =>
    obtain ⟨hframe, rfl⟩ := List.cons.inj hparts
    obtain ⟨rfl, rfl⟩ := Prod.mk.inj hframe
    rw [step_of_work hw]
    cases hu : (g.out t.node)[t.dealt]? with
    | some u => exact exists_invariant_follow h hu
    | none => exact exists_invariant_leave h hu

theorem index_step {v : Fin n} {k : Nat} {below : List (Fin n × Nat)}
    (h : s.work = (v, k) :: below) : (step g s).index = (visit v s).index := by
  rw [step_of_work h]
  split
  · rw [index_follow]
  · rw [index_leave]

theorem index_visit_ne_none (v u : Fin n) (h : s.index.get u ≠ none ∨ u = v) :
    (visit v s).index.get u ≠ none := by
  cases hv : s.index.get v with
  | some i =>
    rw [visit_of_isSome hv]
    rcases h with h | rfl
    · exact h
    · rw [hv]
      exact Option.some_ne_none i
  | none =>
    rw [index_get_visit hv]
    split
    · exact Option.some_ne_none _
    · next hne => exact h.resolve_right hne

/-- **All steps together** keep the invariant, and no visit is lost. -/
theorem invariant_explore (g : Digraph n) (s : Search n) {parts : List (Segment n)}
    (h : Invariant g (settle s) parts) :
    Invariant g (explore g s) [] ∧
      ∀ u, (s.index.get u ≠ none ∨ ∃ k below, s.work = (u, k) :: below) →
        (explore g s).index.get u ≠ none := by
  rw [explore]
  split
  · next hwork =>
    have hsame : settle s = s := by
      unfold settle
      rw [hwork]
    rw [hsame] at h
    have hparts := h.work
    rw [hwork] at hparts
    obtain rfl := List.map_eq_nil_iff.mp hparts.symm
    refine ⟨h, fun u hu => hu.resolve_right ?_⟩
    rintro ⟨k, below, hcons⟩
    rw [hwork] at hcons
    cases hcons
  · next hwork =>
    obtain ⟨⟨v, k⟩, below, hw⟩ := List.exists_cons_of_ne_nil hwork
    obtain ⟨parts', h'⟩ := exists_invariant_step h hwork
    obtain ⟨hend, hkept⟩ := invariant_explore g (step g s) h'
    refine ⟨hend, fun u hu => hkept u (Or.inl ?_)⟩
    rw [index_step hw]
    refine index_visit_ne_none v u (hu.imp_right ?_)
    rintro ⟨k', below', hcons⟩
    rw [hw] at hcons
    exact (Prod.mk.inj (List.cons.inj hcons).1).1.symm
termination_by (s.unvisited, pending g s)
decreasing_by exact step_decreases g ‹_›

/-- Nothing but a root that has not been visited. -/
theorem Invariant.begin (h : Invariant g s []) {root : Fin n} (hroot : s.index.get root = none) :
    Invariant g (settle { s with work := [(root, 0)] }) [⟨root, 0, []⟩] := by
  have hpush := h.push hroot fun t ht => absurd ht List.not_mem_nil
  rw [h.work] at hpush
  rw [settle_of_work rfl, visit_withWork]
  exact hpush

theorem invariant_exploreFrom (h : Invariant g s []) (root : Fin n) :
    Invariant g (exploreFrom g s root) [] ∧
      ∀ u, (s.index.get u ≠ none ∨ u = root) → (exploreFrom g s root).index.get u ≠ none := by
  unfold exploreFrom
  cases hroot : s.index.get root with
  | some i =>
    refine ⟨h, fun u hu => ?_⟩
    rcases hu with hu | rfl
    · exact hu
    · rw [hroot]
      exact Option.some_ne_none i
  | none =>
    obtain ⟨hend, hkept⟩ := invariant_explore g { s with work := [(root, 0)] } (h.begin hroot)
    refine ⟨hend, fun u hu => hkept u (hu.imp_right ?_)⟩
    rintro rfl
    exact ⟨0, [], rfl⟩

theorem invariant_foldl (roots : List (Fin n)) (h : Invariant g s []) :
    Invariant g (roots.foldl (exploreFrom g) s) [] ∧
      ∀ u, (s.index.get u ≠ none ∨ u ∈ roots) →
        (roots.foldl (exploreFrom g) s).index.get u ≠ none := by
  induction roots generalizing s with
  | nil => exact ⟨h, fun u hu => hu.resolve_right List.not_mem_nil⟩
  | cons root roots ih =>
    obtain ⟨hroot, hkept⟩ := invariant_exploreFrom h root
    obtain ⟨hend, hall⟩ := ih hroot
    refine ⟨hend, fun u hu => hall u ?_⟩
    rcases hu with hu | hu
    · exact Or.inl (hkept u (Or.inl hu))
    · rcases List.mem_cons.mp hu with rfl | hu
      · exact Or.inl (hkept u (Or.inr rfl))
      · exact Or.inr hu

theorem invariant_initial (g : Digraph n) : Invariant g (initial n) [] := by
  have hindex : ∀ v : Fin n, (initial n).index.get v = none := fun v =>
    Vector.getElem_replicate v.isLt
  have hflags : ∀ v : Fin n, (initial n).onStack.get v = false := fun v =>
    Vector.getElem_replicate v.isLt
  refine ⟨⟨?_, ?_, ?_, List.Pairwise.nil, ?_⟩, rfl, rfl, List.Pairwise.nil, ?_, ?_, ?_⟩
  · intro v
    rw [hindex v]
    simp [initial, done]
  · intro v
    rw [hflags v]
    simp [initial]
  · intro v i hi
    rw [hindex v] at hi
    cases hi
  · exact fun v hv => absurd hv List.not_mem_nil
  · exact fun t ht => absurd ht List.not_mem_nil
  · exact fun u hu => absurd hu List.not_mem_nil
  · exact ⟨fun c hc => absurd hc List.not_mem_nil, fun c hc => absurd hc List.not_mem_nil,
      fun c hc => absurd hc List.not_mem_nil, List.Pairwise.nil⟩

end Search

namespace Digraph

/-- **The components handed out** are the strongly connected components of the graph, dependencies
first, and every node belongs to one. -/
theorem components_spec (g : Digraph n) :
    g.Splits g.components ∧ ∀ v, ∃ c ∈ g.components, v ∈ c := by
  obtain ⟨hend, hall⟩ := Search.invariant_foldl (List.finRange n) (Search.invariant_initial g)
  refine ⟨hend.splits, fun v => ?_⟩
  have hvisited := (hend.booked.visited v).mp (hall v (Or.inr (List.mem_finRange v)))
  have hstack : ((List.finRange n).foldl (Search.exploreFrom g) (Search.initial n)).stack = [] :=
    hend.stack
  rw [hstack] at hvisited
  exact List.mem_flatten.mp (hvisited.resolve_left List.not_mem_nil)

end Digraph

end Datalog
