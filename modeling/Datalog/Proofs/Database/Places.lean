import Datalog.Proofs.Database.Calls

/-!
# What the position index lists

After any calls, the index of every relation has one map for each position, and each map lists under
a value the places of just those tuples that have the value there (`Database.index_lists_places`).
A place is the number of tuples that were inserted earlier, so ascending places are tuples in the
order of their insertion.

* `PositionIndex.Exact.mem_keys_iff`: which values have an entry.
* `PositionIndex.Exact.mem_places_iff`, `Exact.pairwise_places`: what an entry lists, and in which
  order.
-/

namespace Datalog

theorem pairwise_placesOf (tuples : List Tuple) (position : Nat) (value : Constant) :
    (placesOf tuples position value).Pairwise (· < ·) :=
  List.pairwise_lt_range.filter _

namespace PositionIndex

variable {index : PositionIndex} {tuples : List Tuple} {position : Nat}
  {values : Table Constant (List Nat)} {value : Constant}

theorem places?_of_getElem? (h : index[position]? = some values) (value : Constant) :
    index.places? position value = values.find? value := by
  unfold places?
  rw [h]
  rfl

section Exact

variable (hindex : index.Exact tuples) (h : index[position]? = some values)

include hindex h

theorem Exact.find?_eq (value : Constant) :
    values.find? value = entryOf (placesOf tuples position value) := by
  rw [← places?_of_getElem? h, hindex]

/-- The values that have an entry are those that some tuple has at the position. -/
theorem Exact.mem_keys_iff : value ∈ values.keys ↔ ∃ t ∈ tuples, t[position]? = some value := by
  rw [← not_iff_not, ← Table.find?_eq_none_iff, hindex.find?_eq h, entryOf_eq_none_iff,
    placesOf_eq_nil_iff]
  push Not
  rfl

variable {places : List Nat} (hplaces : values.find? value = some places)

include hplaces

theorem Exact.placesOf_eq : placesOf tuples position value = places := by
  rw [hindex.find?_eq h] at hplaces
  exact (entryOf_eq_some_iff.mp hplaces).1

/-- An entry lists the places of the tuples that have its value at the position. -/
theorem Exact.mem_places_iff {place : Nat} :
    place ∈ places ↔ ∃ t, tuples[place]? = some t ∧ t[position]? = some value := by
  rw [← hindex.placesOf_eq h hplaces]
  exact mem_placesOf

/-- An entry lists its places in ascending order, each once. -/
theorem Exact.pairwise_places : places.Pairwise (· < ·) := by
  rw [← hindex.placesOf_eq h hplaces]
  exact pairwise_placesOf tuples position value

end Exact

end PositionIndex

namespace Database

/-- A tuple that is accepted has a component for every map of the index. -/
theorem WellFormed.length_of_insert {db db' : Database} (hdb : db.WellFormed) {name : Predicate}
    {r : Relation} (hr : db.relations.find? name = some r) {t : Tuple} {isNew : Bool}
    (h : db.insert name t = .ok (isNew, db')) : t.length = r.index.length := by
  obtain ⟨r', hr', harity⟩ := find?_of_insert h
  obtain rfl := Option.some.inj (hr.symm.trans hr')
  rw [(hdb.relation hr).length_index, harity]

/-- A pattern that is accepted has a component for every map of the index. -/
theorem WellFormed.length_of_lookup {db : Database} (hdb : db.WellFormed) {name : Predicate}
    {r : Relation} (hr : db.relations.find? name = some r) {pattern : Pattern}
    {found : List Tuple} (h : db.lookup name pattern = .ok found) :
    pattern.length = r.index.length := by
  have harity := (hdb.lookup_eq_ok_iff.mp h).1
  rw [arity?_of_find? hr] at harity
  rw [(hdb.relation hr).length_index, Option.some.inj harity]

/-- **The index lists the places of the tuples.**  After any calls that create relations and insert
tuples, successful or not, the index of every relation has a map for each position.  At a position,
a value has an entry exactly if some tuple has it there, and then the entry lists the places of all
tuples that do, ascending and each once, none of them beyond the last tuple.  All tuples and
patterns that the relation accepts have as many components as the index has maps, so neither a
further tuple nor a look-up asks for a map that is not there. -/
theorem index_lists_places (changes : List Change) {name : Predicate} {r : Relation}
    (h : (ofChanges changes).relations.find? name = some r) :
    r.index.length = r.arity ∧
    (∀ (position : Nat) (values : Table Constant (List Nat)),
      r.index[position]? = some values → ∀ value,
        (value ∈ values.keys ↔ ∃ t ∈ r.tuples, t[position]? = some value) ∧
        ∀ places, values.find? value = some places →
          (∀ place, place ∈ places ↔
            ∃ t, r.tuples[place]? = some t ∧ t[position]? = some value) ∧
          places.Pairwise (· < ·) ∧ ∀ place ∈ places, place < r.tuples.length) ∧
    (∀ t isNew db', (ofChanges changes).insert name t = .ok (isNew, db') →
      t.length = r.index.length) ∧
    ∀ pattern found, (ofChanges changes).lookup name pattern = .ok found →
      pattern.length = r.index.length := by
  have hdb : (ofChanges changes).WellFormed := (reachable_ofChanges changes).wellFormed
  have hr := hdb.relation h
  refine ⟨hr.length_index, fun position values hvalues value => ?_,
    fun t isNew db' => hdb.length_of_insert h, fun pattern found => hdb.length_of_lookup h⟩
  refine ⟨hr.exact_index.mem_keys_iff hvalues, fun places hplaces => ?_⟩
  have hmem (place : Nat) : place ∈ places ↔
      ∃ t, r.tuples[place]? = some t ∧ t[position]? = some value :=
    hr.exact_index.mem_places_iff hvalues hplaces
  refine ⟨hmem, hr.exact_index.pairwise_places hvalues hplaces, fun place hplace => ?_⟩
  obtain ⟨t, ht, -⟩ := (hmem place).mp hplace
  exact (List.getElem?_eq_some_iff.mp ht).1

/-- Bob's visit to Oslo and Ann's later one are found under the city, and her visit to Rome is not,
with calls that have failed before and between them. -/
theorem visits_to_oslo_listed : ∃ r values places,
    (ofChanges visits).relations.find? "visited" = some r ∧ r.index[1]? = some values ∧
      values.find? "oslo" = some places ∧ 0 ∉ places ∧ 1 ∈ places ∧ 2 ∈ places := by
  obtain ⟨r, hr⟩ := Option.isSome_iff_exists.mp
    (show ((ofChanges visits).relations.find? "visited").isSome by decide +kernel)
  have htuples : r.tuples = [["ann", "rome"], ["bob", "oslo"], ["ann", "oslo"]] := by
    rw [← tuples_of_find? hr]
    decide +kernel
  have harity : some r.arity = some 2 := by
    rw [← arity?_of_find? hr]
    decide +kernel
  obtain ⟨hlength, hlists, -, -⟩ := index_lists_places visits hr
  obtain ⟨values, hvalues⟩ : ∃ values, r.index[1]? = some values :=
    ⟨_, List.getElem?_eq_getElem (by rw [hlength, Option.some.inj harity]; decide)⟩
  obtain ⟨hkeys, hplaces⟩ := hlists 1 values hvalues "oslo"
  obtain ⟨places, hfound⟩ := Table.mem_keys_iff.mp (hkeys.mpr ⟨["bob", "oslo"], by simp [htuples]⟩)
  obtain ⟨hmem, -, -⟩ := hplaces places hfound
  refine ⟨r, values, places, hr, hvalues, hfound, ?_⟩
  simp [hmem, htuples]

end Database

end Datalog
