import Datalog.Table
import Mathlib.Data.List.Nodup

/-!
# What a table with distinct keys holds

`Table.find?` reads the first entry of a key, and `Table.upsert` never adds a second one.  So a
table that was built by updates is determined by its reads: its entries are exactly the pairs of a
key and what is found under it.

* `Table.find?_of_mem_entries`: the entries of a table with distinct keys, in terms of `find?`.
* `Table.eq_of_find?_eq`: tables with the same keys are told apart by reading them.
* `Table.nodup_keys_upsert`, `Table.mem_keys_upsert`: what an update does to the keys.
* `nodup_eraseDups`, `length_eraseDups_congr`, `eraseDups_map`, `eraseDups_append_eq_foldl`: a list
  without its repetitions.
* `foldl_arrive`: what one list has to add to another.
-/

namespace Datalog

section Lists

variable {α : Type} [DecidableEq α]

theorem arrive_of_mem {l : List α} {a : α} (h : a ∈ l) : arrive l a = l := by
  unfold arrive
  rw [if_pos h]

theorem arrive_of_not_mem {l : List α} {a : α} (h : a ∉ l) : arrive l a = l ++ [a] := by
  unfold arrive
  rw [if_neg h]

theorem mem_foldl_arrive {l m : List α} {a : α} :
    a ∈ m.foldl arrive l ↔ a ∈ l ∨ a ∈ m := by
  induction m generalizing l with
  | nil => simp
  | cons b m ih => rw [List.foldl_cons, ih, mem_arrive, List.mem_cons, or_assoc]

/-- Nothing in front of the new arrival moves. -/
theorem prefix_arrive (l : List α) (a : α) : l <+: arrive l a := by
  unfold arrive
  split
  · exact List.prefix_refl l
  · exact List.prefix_append l [a]

omit [DecidableEq α] in
/-- What stands in a list stays in its place when the list grows behind it. -/
theorem getElem?_of_prefix {l m : List α} (h : l <+: m) {i : Nat} {a : α} (hi : l[i]? = some a) :
    m[i]? = some a := by
  obtain ⟨hlt, rfl⟩ := List.getElem?_eq_some_iff.mp hi
  exact List.prefix_iff_getElem?.mp h i hlt

omit [DecidableEq α] in
theorem nodup_eraseDups [BEq α] [LawfulBEq α] : ∀ l : List α, l.eraseDups.Nodup
  | [] => by simp
  | a :: l => by
    rw [List.eraseDups_cons, List.nodup_cons]
    refine ⟨?_, nodup_eraseDups (l.filter fun b => !b == a)⟩
    rw [List.mem_eraseDups]
    simp
termination_by l => l.length
decreasing_by exact Nat.lt_succ_of_le (List.length_filter_le _ l)

/-- Two lists with the same members are equally long once their repetitions are erased. -/
theorem length_eraseDups_congr {l m : List α} (h : ∀ a, a ∈ l ↔ a ∈ m) :
    l.eraseDups.length = m.eraseDups.length := by
  refine List.Perm.length_eq ?_
  rw [List.perm_ext_iff_of_nodup (nodup_eraseDups l) (nodup_eraseDups m)]
  intro a
  rw [List.mem_eraseDups, List.mem_eraseDups]
  exact h a

end Lists

section Repetitions

variable {α : Type} [BEq α] [LawfulBEq α]

/-- Without repetitions, a list goes on with an element only if that is new. -/
theorem eraseDups_concat [DecidableEq α] (l : List α) (a : α) :
    (l ++ [a]).eraseDups = arrive l.eraseDups a := by
  rw [List.eraseDups_append]
  by_cases ha : a ∈ l
  · rw [arrive_of_mem (List.mem_eraseDups.mpr ha)]
    simp [List.removeAll, ha]
  · rw [arrive_of_not_mem fun hmem => ha (List.mem_eraseDups.mp hmem)]
    simp [List.removeAll, ha, List.eraseDups_cons]

theorem eraseDups_of_nodup {l : List α} (h : l.Nodup) : l.eraseDups = l := by
  induction l with
  | nil => exact List.eraseDups_nil
  | cons a l ih =>
    obtain ⟨ha, hl⟩ := List.nodup_cons.mp h
    have hsame : l.filter (fun b => !b == a) = l := by
      refine List.filter_eq_self.mpr fun b hb => ?_
      have hne : b ≠ a := fun heq => ha (heq ▸ hb)
      simpa using hne
    rw [List.eraseDups_cons, hsame, ih hl]

/-- What arrives behind a list are the elements that it lacks, each once, in the order of their
first arrival. -/
theorem foldl_arrive [DecidableEq α] (l m : List α) :
    m.foldl arrive l = l ++ (m.removeAll l).eraseDups := by
  induction m generalizing l with
  | nil => exact (List.append_nil l).symm
  | cons a m ih =>
    rw [List.foldl_cons, ih, List.cons_removeAll]
    by_cases ha : a ∈ l
    · rw [arrive_of_mem ha, if_neg (by simpa using ha)]
    · have hrest : m.removeAll (l ++ [a]) = (m.removeAll l).filter fun b => !b == a := by
        rw [List.removeAll, List.removeAll, List.filter_filter]
        refine List.filter_congr fun b _ => ?_
        by_cases hb : b = a <;> simp [hb]
      rw [arrive_of_not_mem ha, if_pos (by simpa using ha), List.eraseDups_cons, hrest,
        List.append_assoc]
      rfl

/-- Nothing moves in front of what is added to a list, repetitions aside. -/
theorem prefix_eraseDups_append (l m : List α) : l.eraseDups <+: (l ++ m).eraseDups := by
  rw [List.eraseDups_append]
  exact List.prefix_append _ _

/-- An injective map may be applied before or after the repetitions are erased. -/
theorem eraseDups_map {β : Type} [BEq β] [LawfulBEq β] {f : α → β} (hf : Function.Injective f) :
    ∀ l : List α, (l.map f).eraseDups = l.eraseDups.map f
  | [] => by simp
  | a :: l => by
    have hcomm : (l.map f).filter (fun b => !b == f a) = (l.filter fun b => !b == a).map f := by
      rw [List.filter_map]
      refine congrArg (List.map f) (List.filter_congr fun b _ => ?_)
      show (!f b == f a) = !b == a
      rw [Bool.eq_iff_iff, Bool.not_eq_true', Bool.not_eq_true', beq_eq_false_iff_ne,
        beq_eq_false_iff_ne]
      exact hf.ne_iff
    rw [List.map_cons, List.eraseDups_cons, List.eraseDups_cons, List.map_cons, hcomm,
      eraseDups_map hf (l.filter fun b => !b == a)]
termination_by l => l.length
decreasing_by exact Nat.lt_succ_of_le (List.length_filter_le _ l)

/-- Without repetitions, the elements of a list arrive one by one. -/
theorem eraseDups_append_eq_foldl [DecidableEq α] (l m : List α) :
    (l ++ m).eraseDups = m.foldl arrive l.eraseDups := by
  induction m generalizing l with
  | nil => rw [List.append_nil, List.foldl_nil]
  | cons a m ih => rw [List.append_cons, ih, eraseDups_concat, List.foldl_cons]

end Repetitions

namespace Table

variable {κ ν : Type} [DecidableEq κ]

/-- A key is absent exactly if nothing is found under it. -/
theorem find?_eq_none_iff {t : Table κ ν} {k : κ} : t.find? k = none ↔ k ∉ t.keys := by
  unfold find? keys
  rw [List.lookup_eq_none_iff, List.mem_map]
  constructor
  · rintro h ⟨e, he, rfl⟩
    simpa using h e he
  · intro h e he
    rw [bne_iff_ne]
    rintro rfl
    exact h ⟨e, he, rfl⟩

theorem mem_keys_iff {t : Table κ ν} {k : κ} : k ∈ t.keys ↔ ∃ v, t.find? k = some v := by
  rw [← Option.isSome_iff_exists, ← Option.ne_none_iff_isSome, ne_eq, find?_eq_none_iff, not_not]

/-- What is found is an entry. -/
theorem mem_entries_of_find? {t : Table κ ν} {k : κ} {v : ν} (h : t.find? k = some v) :
    (k, v) ∈ t.entries := by
  obtain ⟨front, back, hl, -⟩ := List.lookup_eq_some_iff.mp h
  rw [hl]
  exact List.mem_append_right _ List.mem_cons_self

/-- With distinct keys, every entry is found under its key. -/
theorem find?_of_mem_entries {t : Table κ ν} (ht : t.keys.Nodup) {k : κ} {v : ν}
    (h : (k, v) ∈ t.entries) : t.find? k = some v := by
  obtain ⟨w, hw⟩ := mem_keys_iff.mp (List.mem_map_of_mem (f := Prod.fst) h)
  have heq : ((k, v) : κ × ν) = (k, w) :=
    List.inj_on_of_nodup_map ht h (mem_entries_of_find? hw) rfl
  rw [hw, (Prod.mk.inj heq).2]

theorem mem_values_iff {t : Table κ ν} (ht : t.keys.Nodup) {v : ν} :
    v ∈ t.values ↔ ∃ k, t.find? k = some v := by
  unfold values
  rw [List.mem_map]
  constructor
  · rintro ⟨⟨k, w⟩, he, rfl⟩
    exact ⟨k, find?_of_mem_entries ht he⟩
  · rintro ⟨k, hk⟩
    exact ⟨(k, v), mem_entries_of_find? hk, rfl⟩

theorem nodup_keys_upsert {t : Table κ ν} (ht : t.keys.Nodup) (k : κ) (f : Option ν → ν) :
    (t.upsert k f).keys.Nodup := by
  rw [keys_upsert]
  exact nodup_arrive k ht

theorem mem_keys_upsert {t : Table κ ν} {k k' : κ} {f : Option ν → ν} :
    k' ∈ (t.upsert k f).keys ↔ k' ∈ t.keys ∨ k' = k := by
  rw [keys_upsert]
  exact mem_arrive

/-- Reading after `insertNew`: a key that had a value keeps it. -/
theorem find?_insertNew (t : Table κ ν) (k k' : κ) (v : ν) :
    (t.insertNew k v).find? k' = if k' = k then some ((t.find? k).getD v) else t.find? k' :=
  find?_upsert t k k' _

/-- Reading after the same value has been offered under several keys. -/
theorem find?_foldl_insertNew (keys : List κ) (v : ν) (t : Table κ ν) (k : κ) :
    (keys.foldl (fun t k => t.insertNew k v) t).find? k =
      (t.find? k).or (if k ∈ keys then some v else none) := by
  induction keys generalizing t with
  | nil => simp
  | cons k' keys ih =>
    rw [List.foldl_cons, ih, find?_insertNew]
    by_cases hk : k = k'
    · subst hk
      cases t.find? k <;> simp
    · simp [hk]

/-- Reading after a value has been entered under several keys. -/
theorem find?_foldl_upsert (keys : List κ) (v : ν) (t : Table κ ν) (k : κ) :
    (keys.foldl (fun t k => t.upsert k fun _ => v) t).find? k =
      if k ∈ keys then some v else t.find? k := by
  induction keys generalizing t with
  | nil => rfl
  | cons k' keys ih =>
    rw [List.foldl_cons, ih, find?_upsert]
    by_cases hk : k = k'
    · simp [hk]
    · simp [hk]

/-- Updating a present key changes no key. -/
theorem keys_upsert_of_mem {t : Table κ ν} {k : κ} (h : k ∈ t.keys) (f : Option ν → ν) :
    (t.upsert k f).keys = t.keys := by
  rw [keys_upsert, arrive_of_mem h]

theorem upsertEntries_of_lookup {k : κ} {v : ν} {es : List (κ × ν)} (h : es.lookup k = some v) :
    upsertEntries k (fun _ => v) es = es := by
  induction es with
  | nil => cases h
  | cons e es ih =>
    obtain ⟨a, w⟩ := e
    rw [upsertEntries]
    rw [List.lookup_cons] at h
    by_cases ha : a = k
    · subst ha
      rw [beq_self_eq_true] at h
      rw [if_pos rfl, Option.some.inj h]
    · rw [beq_false_of_ne (Ne.symm ha)] at h
      rw [if_neg ha, ih h]

/-- Giving a key the value that it has changes nothing. -/
theorem upsert_of_find? {t : Table κ ν} {k : κ} {v : ν} (h : t.find? k = some v) :
    t.upsert k (fun _ => v) = t := by
  unfold upsert
  rw [upsertEntries_of_lookup h]

/-- With distinct keys, the entries are the keys in order, each with what is found under it. -/
theorem map_find?_keys {t : Table κ ν} (ht : t.keys.Nodup) :
    t.keys.map (fun k => (k, t.find? k)) = t.entries.map fun e => (e.1, some e.2) := by
  unfold keys
  rw [List.map_map]
  apply List.map_congr_left
  intro e he
  exact congrArg (Prod.mk e.1) (find?_of_mem_entries ht he)

/-- Tables with the same distinct keys are equal if the same is found in both. -/
theorem eq_of_find?_eq {t t' : Table κ ν} (ht : t.keys.Nodup) (hkeys : t.keys = t'.keys)
    (hfind : ∀ k, t.find? k = t'.find? k) : t = t' := by
  have hentries : t.entries.map (fun e => (e.1, some e.2)) =
      t'.entries.map fun e => (e.1, some e.2) := by
    rw [← map_find?_keys ht, ← map_find?_keys (hkeys ▸ ht), hkeys, funext hfind]
  have hinjective : Function.Injective fun e : κ × ν => (e.1, some e.2) := by
    intro e e' heq
    obtain ⟨hk, hv⟩ := Prod.mk.inj heq
    exact Prod.ext hk (Option.some.inj hv)
  exact congrArg Table.mk (List.map_injective_iff.mpr hinjective hentries)

end Table

end Datalog
