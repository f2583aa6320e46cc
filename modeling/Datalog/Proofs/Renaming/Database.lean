import Datalog.Proofs.Database.Reachable
import Mathlib.Logic.Embedding.Basic

/-!
# Renamed constants in databases

A renaming of constants is an injective map, applied to every component of every tuple, and to the
keys of the indexes.  Nothing that is done to a database looks at the spelling of a constant; it
only matters which constants are equal.  So every call on the renamed database has the renamed
outcome, with all tuples in the same order.

* `Table.rename`: a table with its keys and values replaced; reads and updates commute with it, if
  the keys are replaced injectively.
* `Relation.rename`, `Database.rename`: relations and databases over the new constants.
* `Database.Reachable.rename`: a renamed database is one that calls can build.

## Where injectivity is needed

A tuple is new, a value has an entry in an index, and a tuple fits a pattern, exactly if certain
constants are *not* equal; a map that is not injective would make them equal.
-/

namespace Datalog

/-! ## Tables -/

namespace Table

variable {κ κ' ν ν' : Type} [DecidableEq κ] [DecidableEq κ']

omit [DecidableEq κ] [DecidableEq κ'] in
/-- The table with its keys and values replaced. -/
def rename (f : κ → κ') (g : ν → ν') (t : Table κ ν) : Table κ' ν' :=
  ⟨t.entries.map (Prod.map f g)⟩

omit [DecidableEq κ] [DecidableEq κ'] in
@[simp] theorem rename_empty (f : κ → κ') (g : ν → ν') : (∅ : Table κ ν).rename f g = ∅ := rfl

omit [DecidableEq κ] in
@[simp] theorem rename_id (t : Table κ ν) : t.rename id id = t := by
  simp [rename]

omit [DecidableEq κ] [DecidableEq κ'] in
theorem values_rename (f : κ → κ') (g : ν → ν') (t : Table κ ν) :
    (t.rename f g).values = t.values.map g := by
  simp [rename, values]

variable {f : κ → κ'} (hf : Function.Injective f)

include hf

theorem find?_rename (g : ν → ν') (t : Table κ ν) (k : κ) :
    (t.rename f g).find? (f k) = (t.find? k).map g := by
  obtain ⟨es⟩ := t
  show (es.map (Prod.map f g)).lookup (f k) = (es.lookup k).map g
  induction es with
  | nil => rfl
  | cons e es ih =>
    rw [List.map_cons, List.lookup_cons, List.lookup_cons]
    by_cases hk : k = e.1
    · simp [hk]
    · have hk' : f k ≠ f e.1 := hf.ne hk
      simp [beq_false_of_ne hk, beq_false_of_ne hk', ih]

/-- An update that does the same to renamed values has the renamed result. -/
theorem upsert_rename {g : ν → ν'} {φ : Option ν → ν} {φ' : Option ν' → ν'}
    (hφ : ∀ old, φ' (old.map g) = g (φ old)) (t : Table κ ν) (k : κ) :
    (t.rename f g).upsert (f k) φ' = (t.upsert k φ).rename f g := by
  obtain ⟨es⟩ := t
  show Table.mk (upsertEntries (f k) φ' (es.map (Prod.map f g))) =
    Table.mk ((upsertEntries k φ es).map (Prod.map f g))
  refine congrArg Table.mk ?_
  induction es with
  | nil => exact congrArg (fun v => [(f k, v)]) (hφ none)
  | cons e es ih =>
    rw [List.map_cons, upsertEntries, upsertEntries]
    by_cases hk : e.1 = k
    · have hk' : (Prod.map f g e).1 = f k := congrArg f hk
      rw [if_pos hk, if_pos hk', List.map_cons]
      exact congrArg (fun v => (f k, v) :: es.map (Prod.map f g)) (hφ (some e.2))
    · have hk' : (Prod.map f g e).1 ≠ f k := hf.ne hk
      rw [if_neg hk, if_neg hk', List.map_cons, ih]

theorem insertNew_rename (g : ν → ν') (t : Table κ ν) (k : κ) (v : ν) :
    (t.rename f g).insertNew (f k) (g v) = (t.insertNew k v).rename f g := by
  refine upsert_rename hf (fun old => ?_) t k
  cases old <;> rfl

theorem foldl_insertNew_rename (g : ν → ν') (v : ν) (keys : List κ) (t : Table κ ν) :
    (keys.map f).foldl (fun t k => t.insertNew k (g v)) (t.rename f g) =
      (keys.foldl (fun t k => t.insertNew k v) t).rename f g := by
  induction keys generalizing t with
  | nil => rfl
  | cons k keys ih =>
    rw [List.map_cons, List.foldl_cons, List.foldl_cons, insertNew_rename hf, ih]

end Table

/-! ## Relations -/

section Renaming

variable (σ : Constant ↪ Constant)

theorem map_constants_injective : Function.Injective (List.map σ) :=
  List.map_injective_iff.mpr σ.injective

/-- The pattern over the new constants. -/
def Pattern.rename (pattern : Pattern) : Pattern := pattern.map (Option.map σ)

theorem Pattern.fits_rename (pattern : Pattern) (t : Tuple) :
    (pattern.rename σ).fits (t.map σ) = pattern.fits t := by
  induction pattern generalizing t with
  | nil => rfl
  | cons bound bounds ih =>
    cases t with
    | nil => cases bound <;> rfl
    | cons v vs =>
      cases bound with
      | none => exact ih vs
      | some c =>
        show (decide (σ c = σ v) && Pattern.fits (Pattern.rename σ bounds) (vs.map σ)) = _
        rw [ih vs, decide_eq_decide.mpr σ.injective.eq_iff]
        rfl

namespace PositionIndex

/-- The index over the new constants. -/
def rename (index : PositionIndex) : PositionIndex := index.map (Table.rename σ id)

theorem add_rename (place : Nat) (index : PositionIndex) (t : Tuple) :
    (index.rename σ).add place (t.map σ) = rename σ (index.add place t) := by
  induction index generalizing t with
  | nil => rfl
  | cons values index ih =>
    cases t with
    | nil => rfl
    | cons v vs =>
      refine congrArg₂ List.cons ?_ (ih vs)
      refine Table.upsert_rename σ.injective (fun old => ?_) values v
      rw [Option.map_id]
      rfl

theorem places?_rename (index : PositionIndex) (position : Nat) (v : Constant) :
    (index.rename σ).places? position (σ v) = index.places? position v := by
  unfold places? rename
  rw [List.getElem?_map]
  cases index[position]? with
  | none => rfl
  | some values =>
    show (values.rename σ id).find? (σ v) = values.find? v
    rw [Table.find?_rename σ.injective, Option.map_id]
    rfl

end PositionIndex

namespace Relation

/-- The relation over the new constants. -/
def rename (r : Relation) : Relation := ⟨r.arity, r.tuples.map (List.map σ), r.index.rename σ⟩

theorem empty_rename (arity : Nat) : (empty arity).rename σ = empty arity := by
  simp [rename, empty, PositionIndex.rename, PositionIndex.empty]

theorem insert_rename (r : Relation) (t : Tuple) :
    (r.rename σ).insert (t.map σ) = ((r.insert t).1, (r.insert t).2.rename σ) := by
  have hmem : t.map σ ∈ (r.rename σ).tuples ↔ t ∈ r.tuples :=
    List.mem_map_of_injective (map_constants_injective σ)
  unfold insert
  by_cases ht : t ∈ r.tuples
  · rw [if_pos ht, if_pos (hmem.mpr ht)]
  · rw [if_neg ht, if_neg (mt hmem.mp ht)]
    simp [rename, PositionIndex.add_rename]

theorem candidatesFrom_rename (index : PositionIndex) (position : Nat) (found : Candidates)
    (pattern : Pattern) :
    candidatesFrom (index.rename σ) position found (pattern.rename σ) =
      candidatesFrom index position found pattern := by
  induction pattern generalizing position found with
  | nil => rfl
  | cons bound bounds ih =>
    cases bound with
    | none => exact ih (position + 1) found
    | some v =>
      show candidatesFrom _ position found (some (σ v) :: Pattern.rename σ bounds) = _
      rw [candidatesFrom, candidatesFrom, PositionIndex.places?_rename]
      cases index.places? position v with
      | none => rfl
      | some places => exact ih (position + 1) (found.narrow places)

/-- **A look-up** finds the renamed tuples in the same order. -/
theorem matching_rename (r : Relation) (pattern : Pattern) :
    (r.rename σ).matching (pattern.rename σ) = (r.matching pattern).map (List.map σ) := by
  have hsame : (r.rename σ).candidates (pattern.rename σ) = r.candidates pattern :=
    candidatesFrom_rename σ r.index 0 .all pattern
  unfold matching
  rw [hsame]
  cases r.candidates pattern with
  | all => rfl
  | nowhere => rfl
  | among places =>
    have hread : (places.filterMap fun i => (r.rename σ).tuples[i]?) =
        (places.filterMap fun i => r.tuples[i]?).map (List.map σ) := by
      rw [List.map_filterMap]
      exact List.filterMap_congr fun i _ => List.getElem?_map
    simp only
    rw [hread, List.filter_map]
    refine congrArg (List.map (List.map σ)) (List.filter_congr fun t _ => ?_)
    exact Pattern.fits_rename σ pattern t

end Relation

/-! ## Databases -/

namespace Database

/-- The database over the new constants. -/
def rename (db : Database) : Database := ⟨db.relations.rename id (Relation.rename σ)⟩

variable (db : Database)

theorem find?_rename (name : Predicate) :
    (db.rename σ).relations.find? name = (db.relations.find? name).map (Relation.rename σ) :=
  Table.find?_rename Function.injective_id (Relation.rename σ) db.relations name

theorem arity?_rename (name : Predicate) : (db.rename σ).arity? name = db.arity? name := by
  unfold arity?
  rw [find?_rename]
  cases db.relations.find? name <;> rfl

theorem relation_rename (name : Predicate) (arity : Nat) :
    (db.rename σ).relation name arity = (db.relation name arity).map (Relation.rename σ) := by
  unfold relation
  rw [find?_rename]
  cases db.relations.find? name with
  | none => rfl
  | some r =>
    show (if r.arity = arity then _ else _) = Except.map _ (if r.arity = arity then _ else _)
    split <;> rfl

theorem create_rename (name : Predicate) (arity : Nat) :
    (db.rename σ).create name arity = (db.create name arity).map (rename σ) := by
  unfold create
  rw [find?_rename]
  cases db.relations.find? name with
  | none =>
    have hnew := Table.insertNew_rename Function.injective_id (Relation.rename σ) db.relations name
      (Relation.empty arity)
    rw [Relation.empty_rename] at hnew
    exact congrArg (fun relations => Except.ok (Database.mk relations)) hnew
  | some r =>
    show (if r.arity = arity then _ else _) = Except.map _ (if r.arity = arity then _ else _)
    split <;> rfl

theorem insert_rename (name : Predicate) (t : Tuple) :
    (db.rename σ).insert name (t.map σ) = (db.insert name t).map (Prod.map id (rename σ)) := by
  unfold insert
  rw [List.length_map, relation_rename]
  cases db.relation name t.length with
  | error e => rfl
  | ok r =>
    have hstored : (db.relations.rename id (Relation.rename σ)).upsert name
          (fun _ => ((r.rename σ).insert (t.map σ)).2) =
        (db.relations.upsert name fun _ => (r.insert t).2).rename id (Relation.rename σ) := by
      rw [Relation.insert_rename]
      exact Table.upsert_rename Function.injective_id (g := Relation.rename σ)
        (φ := fun _ => (r.insert t).2) (fun _ => rfl) db.relations name
    have hnew : ((r.rename σ).insert (t.map σ)).1 = (r.insert t).1 := by
      rw [Relation.insert_rename]
    exact congrArg Except.ok (Prod.ext hnew (congrArg Database.mk hstored))

theorem lookup_rename (name : Predicate) (pattern : Pattern) :
    (db.rename σ).lookup name (pattern.rename σ) =
      (db.lookup name pattern).map (List.map (List.map σ)) := by
  unfold lookup
  rw [Pattern.rename, List.length_map, relation_rename]
  cases db.relation name pattern.length with
  | error e => rfl
  | ok r => exact congrArg Except.ok (Relation.matching_rename σ r pattern)

theorem totalTuples_rename : (db.rename σ).totalTuples = db.totalTuples := by
  unfold totalTuples rename
  rw [Table.values_rename, List.map_map]
  refine congrArg total (List.map_congr_left fun r _ => ?_)
  exact List.length_map _

theorem constants_rename : (db.rename σ).constants = db.constants.map σ := by
  unfold constants rename
  rw [Table.values_rename, List.flatMap_map, ← eraseDups_map σ.injective, List.map_flatMap]
  refine congrArg List.eraseDups (List.flatMap_congr fun r _ => ?_)
  exact List.map_flatten.symm

variable {db}

/-- A renamed database is one that calls can build. -/
theorem Reachable.rename (h : db.Reachable) : (db.rename σ).Reachable := by
  induction h with
  | empty => exact .empty
  | @create db db' name arity _ hcreate ih =>
    have hcall : (db.rename σ).create name arity = .ok (db'.rename σ) := by
      rw [create_rename, hcreate]
      rfl
    exact ih.create hcall
  | @insert db db' name t isNew _ hinsert ih =>
    have hcall : (db.rename σ).insert name (t.map σ) = .ok (isNew, db'.rename σ) := by
      rw [insert_rename, hinsert]
      rfl
    exact ih.insert hcall

theorem rename_refl (db : Database) : db.rename (Function.Embedding.refl Constant) = db := by
  have htable : Table.rename (κ := Constant) (ν := List Nat)
      (Function.Embedding.refl Constant) id = id := funext Table.rename_id
  have hrelation : Relation.rename (Function.Embedding.refl Constant) = id := by
    funext r
    show Relation.mk r.arity (r.tuples.map (List.map id)) (r.index.map (Table.rename _ id)) = r
    rw [htable, List.map_id_fun, List.map_id_fun, List.map_id_fun]
    rfl
  unfold rename
  rw [hrelation, Table.rename_id]

end Database

end Renaming

end Datalog
