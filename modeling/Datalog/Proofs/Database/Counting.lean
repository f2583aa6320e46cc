import Datalog.Proofs.Database.AppendOnly
import Mathlib.Data.Set.Card

/-!
# Counting tuples

A relation lists each of its tuples once, so the length of the list is the number of atoms that the
database states with its name, and what the counts of several relations add up to is the number of
atoms with one of their names.

* `Database.WellFormed.totalTuples_eq_ncard`: all relations.
* `Database.WellFormed.total_count_eq_ncard`: the relations of some names.
* `Database.Inserted.totalTuples`: one insertion.
* `Database.Gained`: what is counted when atoms are added.
-/

namespace Datalog

namespace Database

variable {db db' : Database}

theorem WellFormed.holds_eq_toFinset (h : db.WellFormed) : db.holds = ↑db.listing.toFinset := by
  ext g
  rw [List.coe_toFinset]
  exact h.mem_listing.symm

theorem WellFormed.finite_holds (h : db.WellFormed) : db.holds.Finite := by
  rw [h.holds_eq_toFinset]
  exact Finset.finite_toSet _

theorem WellFormed.totalTuples_eq_ncard (h : db.WellFormed) :
    db.totalTuples = db.holds.ncard := by
  rw [h.holds_eq_toFinset, Set.ncard_coe_finset, List.toFinset_card_of_nodup h.nodup_listing,
    length_listing]

/-- Inserting a tuple adds one to the total if the tuple is new. -/
theorem Inserted.totalTuples {name : Predicate} {t : Tuple} {isNew : Bool} (hdb : db.WellFormed)
    (hdb' : db'.WellFormed) (h : Inserted db name t isNew db') :
    db'.totalTuples = if isNew then db.totalTuples + 1 else db.totalTuples := by
  rw [hdb'.totalTuples_eq_ncard, hdb.totalTuples_eq_ncard, h.holds, Set.union_singleton, h.isNew_eq]
  by_cases hthere : t ∈ db.tuples name
  · have hmem : (name, t) ∈ db.holds := hthere
    rw [Set.insert_eq_of_mem hmem, decide_eq_false (not_not_intro hthere),
      if_neg Bool.false_ne_true]
  · have hnew : (name, t) ∉ db.holds := hthere
    rw [Set.ncard_insert_of_notMem hnew hdb.finite_holds, decide_eq_true hthere, if_pos rfl]

/-- The atoms that a database states with one of the given names. -/
def holdsOver (db : Database) (names : List Predicate) : Interpretation :=
  {g ∈ db.holds | g.1 ∈ names}

theorem mem_holdsOver {names : List Predicate} {g : GroundAtom} :
    g ∈ db.holdsOver names ↔ g ∈ db.holds ∧ g.1 ∈ names := Iff.rfl

theorem WellFormed.finite_holdsOver (h : db.WellFormed) (names : List Predicate) :
    (db.holdsOver names).Finite := h.finite_holds.subset (Set.sep_subset _ _)

theorem WellFormed.count_eq_ncard (h : db.WellFormed) (name : Predicate) :
    db.count name = (db.holdsOver [name]).ncard := by
  have himage : db.holdsOver [name] = Prod.mk name '' ↑(db.tuples name).toFinset := by
    ext ⟨other, t⟩
    simp only [mem_holdsOver, mem_holds, List.mem_singleton, Set.mem_image, List.coe_toFinset,
      Set.mem_ofPred_eq, Prod.mk.injEq]
    constructor
    · rintro ⟨ht, rfl⟩
      exact ⟨t, ht, rfl, rfl⟩
    · rintro ⟨u, hu, rfl, rfl⟩
      exact ⟨hu, rfl⟩
  rw [himage, Set.ncard_image_of_injective _ (Prod.mk_right_injective name), Set.ncard_coe_finset,
    List.toFinset_card_of_nodup (h.nodup_tuples name), count_eq_length_tuples]

/-- **The counts of several relations** add up to the number of atoms with their names. -/
theorem WellFormed.total_count_eq_ncard (h : db.WellFormed) {names : List Predicate}
    (hnames : names.Nodup) : total (names.map db.count) = (db.holdsOver names).ncard := by
  induction names with
  | nil =>
    have hempty : db.holdsOver [] = ∅ := Set.eq_empty_of_forall_notMem fun g hg =>
      List.not_mem_nil hg.2
    rw [hempty, Set.ncard_empty]
    rfl
  | cons name names ih =>
    obtain ⟨hname, hrest⟩ := List.nodup_cons.mp hnames
    have hsplit : db.holdsOver (name :: names) = db.holdsOver [name] ∪ db.holdsOver names := by
      ext g
      simp only [Set.mem_union, mem_holdsOver, List.mem_cons, List.not_mem_nil, or_false,
        ← and_or_left]
    have hdisjoint : Disjoint (db.holdsOver [name]) (db.holdsOver names) := by
      refine Set.disjoint_left.mpr fun g hg hg' => hname ?_
      rw [← List.mem_singleton.mp hg.2]
      exact hg'.2
    rw [List.map_cons, total_cons, h.count_eq_ncard, ih hrest, hsplit,
      Set.ncard_union_eq hdisjoint (h.finite_holdsOver _) (h.finite_holdsOver _)]

/-- A database states the given atoms besides those of another one, which states none of them. -/
structure Gained (db : Database) (A : Interpretation) (db' : Database) : Prop where
  holds : db'.holds = db.holds ∪ A
  fresh : ∀ g ∈ A, g ∉ db.holds

namespace Gained

variable {A : Interpretation} (h : Gained db A db') (hdb : db.WellFormed) (hdb' : db'.WellFormed)

include h hdb'

theorem finite : A.Finite := by
  refine hdb'.finite_holds.subset ?_
  rw [h.holds]
  exact Set.subset_union_right

include hdb

theorem totalTuples_eq : db'.totalTuples = db.totalTuples + A.ncard := by
  have hdisjoint : Disjoint db.holds A := Set.disjoint_right.mpr h.fresh
  rw [hdb'.totalTuples_eq_ncard, hdb.totalTuples_eq_ncard, h.holds,
    Set.ncard_union_eq hdisjoint hdb.finite_holds (h.finite hdb')]

/-- The counts of relations grow by all atoms, if these are all over the names of the relations. -/
theorem total_count_eq {names : List Predicate} (hnames : names.Nodup)
    (hA : ∀ g ∈ A, g.1 ∈ names) :
    total (names.map db'.count) = total (names.map db.count) + A.ncard := by
  have hsplit : db'.holdsOver names = db.holdsOver names ∪ A := by
    ext g
    rw [Set.mem_union, mem_holdsOver, mem_holdsOver, h.holds, Set.mem_union, or_and_right,
      and_iff_left_of_imp (hA g)]
  have hdisjoint : Disjoint (db.holdsOver names) A :=
    Set.disjoint_right.mpr fun g hg hthere => h.fresh g hg hthere.1
  rw [hdb'.total_count_eq_ncard hnames, hdb.total_count_eq_ncard hnames, hsplit,
    Set.ncard_union_eq hdisjoint (hdb.finite_holdsOver _) (h.finite hdb')]

end Gained

end Database

end Datalog
