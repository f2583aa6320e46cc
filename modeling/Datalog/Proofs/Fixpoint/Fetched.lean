import Datalog.Proofs.Fixpoint.Round
import Mathlib.Data.List.Flatten
import Mathlib.Data.List.Perm.Subperm

/-!
# How many tuples a round fetches

What a join fetches for an atom is the part of its range that fits a pattern, and the patterns come
from the substitutions found so far.  If the ranges have fewer tuples, then fewer tuples fit every
pattern, and they give fewer substitutions for the atoms that follow; so the join fetches less
(`scanned_le`).  *Fewer* means the same tuples in any order, with some left out.  In particular the
number of tuples fetched depends on the tuples of each range, but not on how they are ordered
(`scanned_congr`), and neither does it depend on the order of the rules.

It does depend on the order of the body: `a(X), b(X)` looks up all of `a`, and `b(X), a(X)` all of
`b`.
-/

namespace Datalog

/-- Two databases list the same tuples for a predicate, in whatever order. -/
def Database.SameTuples (db e : Database) (name : Predicate) : Prop :=
  (db.tuples name).Perm (e.tuples name)

theorem Database.WellFormed.sameTuples {db e : Database} (hdb : db.WellFormed) (he : e.WellFormed)
    {name : Predicate} (h : ∀ t, (name, t) ∈ db.holds ↔ (name, t) ∈ e.holds) :
    db.SameTuples e name :=
  (List.perm_ext_iff_of_nodup (hdb.nodup_tuples name) (he.nodup_tuples name)).mpr h

section Subperm

variable {α β : Type} {l l' : List α}

theorem subperm_filterMap (h : l.Subperm l') (f : α → Option β) :
    (l.filterMap f).Subperm (l'.filterMap f) := by
  obtain ⟨k, hperm, hsub⟩ := h
  exact ⟨k.filterMap f, hperm.filterMap f, hsub.filterMap f⟩

theorem subperm_flatMap {f g : α → List β} (h : l.Subperm l') (hfg : ∀ a, (f a).Subperm (g a)) :
    (l.flatMap f).Subperm (l'.flatMap g) := by
  obtain ⟨k, hperm, hsub⟩ := h
  have hpointwise : (k.flatMap f).Subperm (k.flatMap g) := by
    clear hperm hsub
    induction k with
    | nil => exact .refl []
    | cons a k ih => exact (hfg a).append ih
  exact (hperm.symm.flatMap_right f).subperm.trans (hpointwise.trans (hsub.flatMap g).subperm)

end Subperm

section Joins

variable {db e added added' : Database}

/-- The same atom, and a range that has at most the tuples of another for it. -/
structure NarrowerRange (db e : Database) (x y : Range × Atom) : Prop where
  atom : x.2 = y.2
  tuples : (x.1.tuples db x.2.predicate).Subperm (y.1.tuples e y.2.predicate)

/-- **What a join fetches** becomes less with fewer tuples and with fewer substitutions. -/
theorem scanned_le {body body' : List (Range × Atom)}
    (h : List.Forall₂ (NarrowerRange db e) body body') {ss ss' : List Substitution}
    (hss : ss.Subperm ss') : scanned db body ss ≤ scanned e body' ss' := by
  induction h generalizing ss ss' with
  | nil => exact Nat.le_refl 0
  | @cons x y rest rest' hxy _ ih =>
    obtain ⟨range, a⟩ := x
    obtain ⟨range', a'⟩ := y
    obtain rfl : a = a' := hxy.atom
    have htuples : (range.tuples db a.predicate).Subperm (range'.tuples e a.predicate) := hxy.tuples
    have hfetched : total (ss.map (range.fetched db a)) ≤ total (ss'.map (range'.fetched e a)) := by
      unfold Range.fetched
      rw [total_map_length, total_map_length]
      exact (subperm_flatMap hss fun s => htuples.filter _).length_le
    have hextended : (ss.flatMap (range.extensions db a)).Subperm
        (ss'.flatMap (range'.extensions e a)) :=
      subperm_flatMap hss fun s => subperm_filterMap htuples fun t => a.match? t s
    exact Nat.add_le_add hfetched (ih hextended)

/-- The same atom, and ranges that have the same tuples for it. -/
structure SameRange (db e : Database) (x y : Range × Atom) : Prop where
  atom : x.2 = y.2
  tuples : (x.1.tuples db x.2.predicate).Perm (y.1.tuples e y.2.predicate)

/-- **What a join fetches** does not depend on the order of tuples. -/
theorem scanned_congr {body body' : List (Range × Atom)}
    (h : List.Forall₂ (SameRange db e) body body') (ss : List Substitution) :
    scanned db body ss = scanned e body' ss := by
  have hle : List.Forall₂ (NarrowerRange db e) body body' :=
    h.imp fun _ _ hxy => ⟨hxy.atom, hxy.tuples.subperm⟩
  have hge : List.Forall₂ (NarrowerRange e db) body' body := by
    refine List.Forall₂.flip (h.imp fun x y hxy => ⟨hxy.atom.symm, ?_⟩)
    exact hxy.tuples.symm.subperm
  exact Nat.le_antisymm (scanned_le hle (.refl ss)) (scanned_le hge (.refl ss))

theorem forall₂_overStored {r : Rule} (h : ∀ b ∈ r.body, db.SameTuples e b.predicate) :
    List.Forall₂ (SameRange db e) r.overStored r.overStored :=
  List.forall₂_same.mpr fun x hx => by
    obtain ⟨b, hb, rfl⟩ := List.mem_map.mp hx
    exact ⟨rfl, h b hb⟩

/-- Two ranges for every place of a list. -/
theorem forall₂_mapIdx {α β : Type} {R : β → β → Prop} {f g : Nat → α → β} {l : List α}
    (h : ∀ i, ∀ a ∈ l, R (f i a) (g i a)) : List.Forall₂ R (l.mapIdx f) (l.mapIdx g) := by
  induction l generalizing f g with
  | nil => exact .nil
  | cons a l ih =>
    rw [List.mapIdx_cons, List.mapIdx_cons]
    refine .cons (h 0 a List.mem_cons_self) (ih fun i b hb => ?_)
    exact h (i + 1) b (List.mem_cons_of_mem a hb)

theorem forall₂_overRecent {r : Rule} (h : ∀ b ∈ r.body, db.SameTuples e b.predicate)
    (hadded : ∀ b ∈ r.body, added.SameTuples added' b.predicate) (position : Nat) :
    List.Forall₂ (SameRange db e) (r.overRecent position added)
      (r.overRecent position added') := by
  refine forall₂_mapIdx fun i b hb => ⟨rfl, ?_⟩
  by_cases hposition : i = position
  · rw [if_pos hposition, if_pos hposition]
    exact hadded b hb
  · rw [if_neg hposition, if_neg hposition]
    exact h b hb

/-- An atom over the latest tuples has a narrower range than over all tuples. -/
theorem forall₂_overRecent_overStored {r : Rule} (h : ∀ b ∈ r.body, db.SameTuples e b.predicate)
    (hadded : ∀ b ∈ r.body, (added.tuples b.predicate).Subperm (e.tuples b.predicate))
    (position : Nat) :
    List.Forall₂ (NarrowerRange db e) (r.overRecent position added) r.overStored := by
  have hstored : r.overStored = r.body.mapIdx fun _ b => (.stored, b) := by
    refine List.ext_getElem? fun i => ?_
    rw [Rule.overStored, List.getElem?_map, List.getElem?_mapIdx]
  rw [hstored]
  refine forall₂_mapIdx fun i b hb => ⟨rfl, ?_⟩
  by_cases hposition : i = position
  · rw [if_pos hposition]
    exact hadded b hb
  · rw [if_neg hposition]
    exact (h b hb).subperm

end Joins

/-- What a round fetches for a rule depends on the predicates of the stratum and on the tuples of
the relations that the rule reads. -/
theorem Stratum.fetchedFor_congr (settings : Settings) {s s' : Stratum}
    (hs : ∀ name, name ∈ s.predicates ↔ name ∈ s'.predicates) (round : Nat)
    {added added' db e : Database} {r : Rule} (h : ∀ b ∈ r.body, db.SameTuples e b.predicate)
    (hadded : ∀ b ∈ r.body, added.SameTuples added' b.predicate) :
    s.fetchedFor settings round added db r = s'.fetchedFor settings round added' e r := by
  have hlocal : s.isLocal = s'.isLocal := by
    funext a
    exact decide_eq_decide.mpr (hs a.predicate)
  have hwhole : scanned db r.overStored [∅] = scanned e r.overStored [∅] :=
    scanned_congr (forall₂_overStored h) _
  have hagain : r.fetchedAgain added db = r.fetchedAgain added' e := by
    funext positions
    refine congrArg total (List.map_congr_left fun i _ => ?_)
    exact scanned_congr (forall₂_overRecent h hadded i) _
  unfold fetchedFor isRecursiveRule localPositions
  rw [hlocal, hwhole, hagain]

end Datalog
