/-!
# Tables in order of arrival

A `Table` is a finite map that remembers the order in which its keys first arrived.  Relations,
predicate indexes, variable bindings and derivations are all kept in such tables, because every
listing this library prints follows the order of arrival.

* `Table.find?`: the value under a key.
* `Table.upsert`: give a key a value computed from the one it had.  A present key keeps its
  place, a new key goes to the end.
* `arrive`: the same rule for plain lists, a member of a list stays where it is.

## Why one primitive suffices

Insertion, replacement and "insert unless present" are all `upsert` with a suitable function of
the previous value, so the order of keys needs to be understood once: `keys_upsert` says that the
keys after an `upsert` are the keys before, with the key appended if it was missing.
-/

namespace Datalog

/-- A finite map whose entries stay in the order in which their keys first arrived. -/
structure Table (κ ν : Type) where
  /-- The entries, oldest key first. -/
  entries : List (κ × ν) := []
  deriving DecidableEq, Repr

/-- Append an element to a list unless it is there already. -/
def arrive {α : Type} [DecidableEq α] (l : List α) (a : α) : List α :=
  if a ∈ l then l else l ++ [a]

@[simp] theorem mem_arrive {α : Type} [DecidableEq α] {l : List α} {a b : α} :
    b ∈ arrive l a ↔ b ∈ l ∨ b = a := by
  unfold arrive
  split
  · constructor
    · exact Or.inl
    · rintro (h | rfl) <;> assumption
  · simp

theorem nodup_arrive {α : Type} [DecidableEq α] {l : List α} (a : α) (h : l.Nodup) :
    (arrive l a).Nodup := by
  unfold arrive
  split
  · exact h
  · next ha =>
    rw [List.nodup_append]
    refine ⟨h, by simp, ?_⟩
    intro x hx y hy hxy
    rw [List.mem_singleton] at hy
    exact ha (hy ▸ hxy ▸ hx)

namespace Table

variable {κ ν : Type} [DecidableEq κ]

instance : EmptyCollection (Table κ ν) := ⟨⟨[]⟩⟩

instance : Inhabited (Table κ ν) := ⟨⟨[]⟩⟩

omit [DecidableEq κ] in
/-- The keys, oldest first. -/
def keys (t : Table κ ν) : List κ := t.entries.map Prod.fst

omit [DecidableEq κ] in
/-- The values, in the order of their keys. -/
def values (t : Table κ ν) : List ν := t.entries.map Prod.snd

/-- The value under a key. -/
def find? (t : Table κ ν) (k : κ) : Option ν := t.entries.lookup k

/-- The entries after giving `k` the value that `f` computes from its previous value. -/
def upsertEntries (k : κ) (f : Option ν → ν) : List (κ × ν) → List (κ × ν)
  | [] => [(k, f none)]
  | e :: es => if e.1 = k then (k, f (some e.2)) :: es else e :: upsertEntries k f es

/-- Give `k` the value that `f` computes from its previous value.  A present key keeps its place,
a new key goes to the end. -/
def upsert (t : Table κ ν) (k : κ) (f : Option ν → ν) : Table κ ν :=
  ⟨upsertEntries k f t.entries⟩

/-- Give `k` the value `v`, unless it has one. -/
def insertNew (t : Table κ ν) (k : κ) (v : ν) : Table κ ν := t.upsert k fun old => old.getD v

omit [DecidableEq κ] in
/-- Apply a function to every value. -/
def mapValues (f : ν → ν) (t : Table κ ν) : Table κ ν := ⟨t.entries.map fun e => (e.1, f e.2)⟩

omit [DecidableEq κ] in
/-- The table of the `n` oldest keys. -/
def truncate (t : Table κ ν) (n : Nat) : Table κ ν := ⟨t.entries.take n⟩

/-! ## What an update does to the keys and to the values -/

@[simp] theorem find?_empty (k : κ) : (∅ : Table κ ν).find? k = none := rfl

theorem lookup_upsertEntries (k k' : κ) (f : Option ν → ν) (es : List (κ × ν)) :
    (upsertEntries k f es).lookup k' =
      if k' = k then some (f (es.lookup k)) else es.lookup k' := by
  induction es with
  | nil =>
    rw [upsertEntries, List.lookup_cons]
    by_cases h : k' = k
    · simp [h]
    · simp [h, beq_false_of_ne h]
  | cons e es ih =>
    rw [upsertEntries]
    by_cases ha : e.1 = k
    · rw [if_pos ha, List.lookup_cons, List.lookup_cons, List.lookup_cons, ha]
      by_cases h : k' = k
      · simp [h]
      · simp [h, beq_false_of_ne h]
    · rw [if_neg ha, List.lookup_cons, List.lookup_cons, List.lookup_cons, ih]
      by_cases h : k' = e.1
      · subst h
        simp [ha]
      · by_cases hk : k' = k
        · subst hk
          simp [beq_false_of_ne h]
        · simp [beq_false_of_ne h, hk]

/-- Reading after an update: the updated key has the computed value, every other key is as it
was. -/
theorem find?_upsert (t : Table κ ν) (k k' : κ) (f : Option ν → ν) :
    (t.upsert k f).find? k' = if k' = k then some (f (t.find? k)) else t.find? k' :=
  lookup_upsertEntries k k' f t.entries

theorem keys_upsertEntries (k : κ) (f : Option ν → ν) (es : List (κ × ν)) :
    (upsertEntries k f es).map Prod.fst = arrive (es.map Prod.fst) k := by
  induction es with
  | nil => simp [upsertEntries, arrive]
  | cons e es ih =>
    obtain ⟨a, v⟩ := e
    by_cases ha : a = k
    · subst ha
      simp [upsertEntries, arrive]
    · have ha' : ¬ k = a := fun h => ha h.symm
      simp only [upsertEntries, ha, if_false, List.map_cons, ih, arrive, List.mem_cons, ha',
        false_or]
      split <;> rfl

/-- The keys after an update are the keys before, with the key appended if it was missing. -/
theorem keys_upsert (t : Table κ ν) (k : κ) (f : Option ν → ν) :
    (t.upsert k f).keys = arrive t.keys k :=
  keys_upsertEntries k f t.entries

end Table

end Datalog
