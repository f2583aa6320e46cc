import Datalog.Relation
import Datalog.Proofs.Table
import Mathlib.Data.List.Induction

/-!
# The position index of a relation is exact

Under every value that occurs at a position, the index lists the places of the tuples that have it
there, ascending and without repetition; under any other value it has no entry.

* `placesOf`: these places, computed from the tuples.
* `PositionIndex.Exact`: the index says about every position what the tuples say.
* `PositionIndex.Exact.add`: noting a further tuple keeps the index exact.
-/

namespace Datalog

/-- The places of the tuples that have a value at a position, ascending. -/
def placesOf (tuples : List Tuple) (position : Nat) (value : Constant) : List Nat :=
  (List.range tuples.length).filter fun i =>
    decide ((tuples[i]?.bind fun t => t[position]?) = some value)

/-- What an index should answer for a list of places: nothing, if there is none. -/
def entryOf : List Nat → Option (List Nat)
  | [] => none
  | i :: is => some (i :: is)

theorem entryOf_getD (places : List Nat) : (entryOf places).getD [] = places := by
  cases places <;> rfl

theorem entryOf_eq_none_iff {places : List Nat} : entryOf places = none ↔ places = [] := by
  cases places <;> simp [entryOf]

theorem entryOf_eq_some_iff {places found : List Nat} :
    entryOf places = some found ↔ places = found ∧ found ≠ [] := by
  cases places with
  | nil =>
    simp only [entryOf, reduceCtorEq, false_iff, not_and, not_not]
    exact fun h => h.symm
  | cons i is =>
    simp only [entryOf, Option.some.injEq]
    refine ⟨fun h => ⟨h, ?_⟩, fun h => h.1⟩
    rw [← h]
    exact List.cons_ne_nil i is

theorem entryOf_append_singleton (places : List Nat) (i : Nat) :
    entryOf (places ++ [i]) = some (places ++ [i]) := by
  cases places <;> rfl

@[simp] theorem placesOf_nil (position : Nat) (value : Constant) :
    placesOf [] position value = [] := rfl

theorem mem_placesOf {tuples : List Tuple} {position : Nat} {value : Constant} {i : Nat} :
    i ∈ placesOf tuples position value ↔
      ∃ t, tuples[i]? = some t ∧ t[position]? = some value := by
  unfold placesOf
  rw [List.mem_filter, List.mem_range, decide_eq_true_iff, Option.bind_eq_some_iff]
  constructor
  · exact fun h => h.2
  · rintro ⟨t, ht, hv⟩
    exact ⟨(List.getElem?_eq_some_iff.mp ht).1, t, ht, hv⟩

theorem placesOf_eq_nil_iff {tuples : List Tuple} {position : Nat} {value : Constant} :
    placesOf tuples position value = [] ↔ ∀ t ∈ tuples, t[position]? ≠ some value := by
  rw [List.eq_nil_iff_forall_not_mem]
  constructor
  · intro h t ht hv
    obtain ⟨i, hi⟩ := List.mem_iff_getElem?.mp ht
    exact h i (mem_placesOf.mpr ⟨t, hi, hv⟩)
  · intro h i hi
    obtain ⟨t, ht, hv⟩ := mem_placesOf.mp hi
    exact h t (List.mem_of_getElem? ht) hv

/-- A further tuple adds its place under the values it holds, behind all former places. -/
theorem placesOf_append_singleton (tuples : List Tuple) (t : Tuple) (position : Nat)
    (value : Constant) :
    placesOf (tuples ++ [t]) position value =
      placesOf tuples position value ++
        if t[position]? = some value then [tuples.length] else [] := by
  have hlast : (tuples ++ [t])[tuples.length]? = some t := by simp
  unfold placesOf
  rw [List.length_append, List.length_singleton, List.range_succ, List.filter_append]
  congr 1
  · apply List.filter_congr
    intro i hi
    rw [List.getElem?_append_left (List.mem_range.mp hi)]
  · rw [List.filter_singleton, hlast, Option.bind_some]
    split <;> simp_all

/-- The tuples at the places of a value are the tuples that have it, in the same order. -/
theorem filterMap_placesOf (tuples : List Tuple) (position : Nat) (value : Constant) :
    (placesOf tuples position value).filterMap (fun i => tuples[i]?) =
      tuples.filter fun t => decide (t[position]? = some value) := by
  induction tuples using List.reverseRecOn with
  | nil => rfl
  | append_singleton tuples t ih =>
    have hfront : (placesOf tuples position value).filterMap (fun i => (tuples ++ [t])[i]?) =
        (placesOf tuples position value).filterMap (fun i => tuples[i]?) := by
      apply List.filterMap_congr
      intro i hi
      obtain ⟨u, hu, -⟩ := mem_placesOf.mp hi
      exact List.getElem?_append_left (List.getElem?_eq_some_iff.mp hu).1
    rw [placesOf_append_singleton, List.filterMap_append, hfront, ih, List.filter_append]
    congr 1
    by_cases h : t[position]? = some value
    · simp [h]
    · simp [h]

namespace PositionIndex

/-- The index says about every position what the tuples say. -/
def Exact (index : PositionIndex) (tuples : List Tuple) : Prop :=
  ∀ position value, index.places? position value = entryOf (placesOf tuples position value)

@[simp] theorem length_empty (arity : Nat) : (empty arity).length = arity :=
  List.length_replicate

theorem exact_empty (arity : Nat) : (empty arity).Exact [] := by
  intro position value
  unfold places? empty
  rw [placesOf_nil, List.getElem?_replicate]
  split <;> rfl

theorem length_add (place : Nat) (index : PositionIndex) (t : Tuple) :
    (index.add place t).length = index.length := by
  induction index generalizing t with
  | nil => rfl
  | cons values index ih =>
    cases t with
    | nil => rfl
    | cons v vs => rw [add, List.length_cons, List.length_cons, ih]

/-- Noting a tuple adds its place to the entries of the values it holds. -/
theorem places?_add (place : Nat) {index : PositionIndex} {t : Tuple}
    (h : index.length = t.length) (position : Nat) (value : Constant) :
    (index.add place t).places? position value =
      if t[position]? = some value then
        some (arrive ((index.places? position value).getD []) place)
      else index.places? position value := by
  induction index generalizing t position with
  | nil =>
    cases t with
    | nil => simp [add]
    | cons v vs => simp at h
  | cons values index ih =>
    cases t with
    | nil => simp at h
    | cons v vs =>
      rw [add]
      cases position with
      | zero =>
        show (Table.upsert values v _).find? value = _
        rw [Table.find?_upsert, List.getElem?_cons_zero]
        by_cases hv : value = v
        · subst hv
          simp [places?]
        · have hv' : ¬ some v = some value := fun h => hv (Option.some.inj h).symm
          rw [if_neg hv, if_neg hv']
          rfl
      | succ position =>
        show places? (add place index vs) position value = _
        rw [ih (by simpa using h) position, List.getElem?_cons_succ]
        rfl

/-- **Noting a further tuple keeps the index exact.** -/
theorem Exact.add {index : PositionIndex} {tuples : List Tuple} (h : index.Exact tuples)
    {t : Tuple} (ht : index.length = t.length) :
    (index.add tuples.length t).Exact (tuples ++ [t]) := by
  intro position value
  rw [places?_add tuples.length ht, h position value, placesOf_append_singleton]
  by_cases hv : t[position]? = some value
  · have hnew : tuples.length ∉ placesOf tuples position value := by
      intro hmem
      obtain ⟨u, hu, -⟩ := mem_placesOf.mp hmem
      exact absurd (List.getElem?_eq_some_iff.mp hu).1 (Nat.lt_irrefl _)
    rw [if_pos hv, if_pos hv, entryOf_getD, arrive_of_not_mem hnew, entryOf_append_singleton]
  · rw [if_neg hv, if_neg hv, List.append_nil]

end PositionIndex

end Datalog
