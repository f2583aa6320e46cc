import Datalog.Proofs.Fixpoint.Strata
import Datalog.Proofs.Renaming.Program

/-!
# Joins commute with renaming

A computation on a database and one on the renamed database *correspond* if both succeed, with
values that are related, or both fail with the same error, and if the second leaves the renamed
database in either case.  The calls of a database correspond to those with renamed arguments, and
correspondence is kept by sequencing; so a rule, joined over a database, corresponds to the renamed
rule (`renames_derive`).

* `Renamed σ Q`: corresponding outcomes, with values related by `Q`.
* `Renames σ Q`: computations with corresponding outcomes on corresponding databases.
* `Range.rename`, `renameBody`: what the atoms of a body range over, renamed.
-/

namespace Datalog

section Outcomes

variable {ε ε' α α' β β' : Type} (σ : Constant ↪ Constant)

/-- Corresponding outcomes. -/
inductive Renamed (Q : α → β → Prop) :
    EStateM.Result ε Database α → EStateM.Result ε Database β → Prop where
  | ok {a : α} {b : β} (db : Database) : Q a b → Renamed Q (.ok a db) (.ok b (db.rename σ))
  | error (e : ε) (db : Database) : Renamed Q (.error e db) (.error e (db.rename σ))

/-- Computations with corresponding outcomes on corresponding databases. -/
def Renames (Q : α → β → Prop) (x : EStateM ε Database α) (y : EStateM ε Database β) : Prop :=
  ∀ db, Renamed σ Q (x db) (y (db.rename σ))

variable {σ} {Q : α → β → Prop} {Q' : α' → β' → Prop}

theorem Renamed.ok_of_eq_ok {r : EStateM.Result ε Database α} {r' : EStateM.Result ε Database β}
    (h : Renamed σ Q r r') {a : α} {db : Database} (hr : r = .ok a db) :
    ∃ b, r' = .ok b (db.rename σ) ∧ Q a b := by
  cases h with
  | ok db' hab =>
    obtain ⟨rfl, rfl⟩ := EStateM.Result.ok.inj hr
    exact ⟨_, rfl, hab⟩
  | error e db' => cases hr

namespace Renames

theorem pure {a : α} {b : β} (h : Q a b) : Renames (ε := ε) σ Q (Pure.pure a) (Pure.pure b) :=
  fun db => .ok db h

theorem throw (e : ε) : Renames σ Q (MonadExcept.throw e : EStateM ε Database α)
    (MonadExcept.throw e : EStateM ε Database β) :=
  fun db => .error e db

theorem bind {x : EStateM ε Database α} {y : EStateM ε Database β}
    {f : α → EStateM ε Database α'} {g : β → EStateM ε Database β'} (h : Renames σ Q x y)
    (hfg : ∀ a b, Q a b → Renames σ Q' (f a) (g b)) : Renames σ Q' (x >>= f) (y >>= g) := by
  intro db
  have hdb := h db
  cases hx : x db with
  | ok a mid =>
    obtain ⟨b, hy, hab⟩ := hdb.ok_of_eq_ok hx
    rw [bind_of_eq_ok f hx, bind_of_eq_ok g hy]
    exact hfg a b hab mid
  | error e mid =>
    rw [hx] at hdb
    generalize hy : y (db.rename σ) = r at hdb
    cases hdb
    rw [bind_of_eq_error f hx, bind_of_eq_error g hy]
    exact .error e mid

theorem map {x : EStateM ε Database α} {y : EStateM ε Database β} {f : α → α'} {g : β → β'}
    (h : Renames σ Q x y) (hfg : ∀ a b, Q a b → Q' (f a) (g b)) :
    Renames σ Q' (f <$> x) (g <$> y) := by
  rw [← bind_pure_comp, ← bind_pure_comp]
  exact h.bind fun a b hab => .pure (hfg a b hab)

theorem adaptExcept {x : EStateM ε Database α} {y : EStateM ε Database β} (h : Renames σ Q x y)
    (f : ε → ε') : Renames σ Q (EStateM.adaptExcept f x) (EStateM.adaptExcept f y) := by
  intro db
  have hdb := h db
  show Renamed σ Q (EStateM.adaptExcept f x db) (EStateM.adaptExcept f y (db.rename σ))
  unfold EStateM.adaptExcept
  generalize x db = r, y (db.rename σ) = r' at hdb
  cases hdb with
  | ok db' hab => exact .ok db' hab
  | error e db' => exact .error (f e) db'

end Renames

end Outcomes

variable {σ : Constant ↪ Constant}

/-! ## Calls -/

/-- The second value is the image of the first. -/
abbrev IsImage {α β : Type} (f : α → β) (a : α) (b : β) : Prop := b = f a

theorem renames_create (name : Predicate) (arity : Nat) :
    Renames σ Eq (Storage.create (σ := Database) name arity)
      (Storage.create name arity) := by
  intro db
  show Renamed σ _ (Database.createCall name arity db)
    (Database.createCall name arity (db.rename σ))
  simp only [Database.createCall, Database.write, Database.create_rename]
  cases db.create name arity with
  | error e => exact .error e db
  | ok db' => exact .ok db' rfl

theorem renames_insert (name : Predicate) (t : Tuple) :
    Renames σ Eq (Storage.insert (σ := Database) name t)
      (Storage.insert name (t.map σ)) := by
  intro db
  show Renamed σ _ (Database.insertCall name t db)
    (Database.insertCall name (t.map σ) (db.rename σ))
  simp only [Database.insertCall, Database.write, Database.insert_rename]
  cases db.insert name t with
  | error e => exact .error e db
  | ok result => exact .ok result.2 rfl

theorem renames_lookup (name : Predicate) (pattern : Pattern) :
    Renames σ (IsImage (List.map (List.map σ))) (Storage.lookup (σ := Database) name pattern)
      (Storage.lookup name (pattern.rename σ)) := by
  intro db
  show Renamed σ _ (Database.lookupCall name pattern db)
    (Database.lookupCall name (pattern.rename σ) (db.rename σ))
  simp only [Database.lookupCall, Database.read, Database.lookup_rename]
  cases db.lookup name pattern with
  | error e => exact .error e db
  | ok found => exact .ok db rfl

/-! ## Joins -/

/-- The range over the new constants. -/
def Range.rename (σ : Constant ↪ Constant) : Range → Range
  | .stored => .stored
  | .recent added => .recent (added.rename σ)

theorem renames_find (range : Range) (name : Predicate) (pattern : Pattern) :
    Renames σ (IsImage (List.map (List.map σ))) (range.find (σ := Database) name pattern)
      ((range.rename σ).find name (pattern.rename σ)) := by
  cases range with
  | stored => exact renames_lookup name pattern
  | recent added =>
    unfold Range.rename Range.find
    simp only
    rw [Database.arity?_rename, Database.lookup_rename]
    cases added.arity? name with
    | none => exact .pure rfl
    | some k =>
      cases added.lookup name pattern with
      | error e => exact .throw e
      | ok found => exact .pure rfl

section Rules

variable (ρ : Variable ↪ Variable)

/-- Body atoms with their ranges, renamed. -/
def renameBody (ρ : Variable ↪ Variable) (σ : Constant ↪ Constant) (body : List (Range × Atom)) :
    List (Range × Atom) :=
  body.map (Prod.map (Range.rename σ) (Atom.rename ρ σ))

theorem filterMap_match?_rename (a : Atom) (found : List Tuple) (s : Substitution) :
    ((found.map (List.map σ)).filterMap fun t => (a.rename ρ σ).match? t (s.rename ρ σ)) =
      (found.filterMap fun t => a.match? t s).map (Table.rename ρ σ) := by
  rw [List.filterMap_map, List.map_filterMap]
  exact List.filterMap_congr fun t _ => Atom.match?_rename ρ σ a t s

theorem renames_extendAll (range : Range) (a : Atom) (ss : List Substitution) :
    Renames σ (IsImage (Prod.map (List.map (Table.rename ρ σ)) id))
      (extendAll (σ := Database) range a ss)
      (extendAll (range.rename σ) (a.rename ρ σ) (ss.map (Table.rename ρ σ))) := by
  induction ss with
  | nil => exact .pure rfl
  | cons s ss ih =>
    rw [List.map_cons, extendAll, extendAll, Atom.pattern_rename]
    refine (renames_find range a.predicate (a.pattern s)).bind fun found _ hfound => ?_
    subst hfound
    refine ih.bind fun rest _ hrest => .pure ?_
    subst hrest
    refine Prod.ext ?_ ?_
    · show _ ++ rest.1.map _ = List.map _ (_ ++ rest.1)
      rw [List.map_append, filterMap_match?_rename]
    · exact congrArg (· + rest.2) (List.length_map _)

theorem renames_join (body : List (Range × Atom)) (ss : List Substitution) :
    Renames σ (IsImage (Prod.map (List.map (Table.rename ρ σ)) id)) (join (σ := Database) body ss)
      (join (renameBody ρ σ body) (ss.map (Table.rename ρ σ))) := by
  induction body generalizing ss with
  | nil => exact .pure rfl
  | cons p rest ih =>
    refine (renames_extendAll ρ p.1 p.2 ss).bind fun extended _ hextended => ?_
    subst hextended
    refine (ih extended.1).bind fun joined _ hjoined => .pure ?_
    subst hjoined
    rfl

/-- **A rule** derives the renamed tuples, in the same order. -/
theorem renames_derive (r : Rule) (body : List (Range × Atom)) :
    Renames σ (IsImage (Prod.map (List.map (List.map σ)) id)) (r.derive (σ := Database) body)
      ((r.rename ρ σ).derive (renameBody ρ σ body)) := by
  refine (renames_join ρ body [∅]).bind fun joined _ hjoined => .pure ?_
  subst hjoined
  refine Prod.ext ?_ rfl
  show ((joined.1.map (Table.rename ρ σ)).filterMap (r.head.rename ρ σ).instance?).eraseDups =
    (joined.1.filterMap r.head.instance?).eraseDups.map (List.map σ)
  rw [List.filterMap_map, ← eraseDups_map (map_constants_injective σ), List.map_filterMap]
  exact congrArg List.eraseDups
    (List.filterMap_congr fun s _ => Atom.instance?_rename ρ σ r.head s)

theorem overStored_rename (r : Rule) :
    (r.rename ρ σ).overStored = renameBody ρ σ r.overStored := by
  unfold Rule.overStored renameBody Rule.rename
  rw [List.map_map, List.map_map]
  rfl

theorem overRecent_rename (r : Rule) (position : Nat) (added : Database) :
    (r.rename ρ σ).overRecent position (added.rename σ) =
      renameBody ρ σ (r.overRecent position added) := by
  unfold Rule.overRecent renameBody Rule.rename
  refine List.ext_getElem? fun i => ?_
  simp only [List.getElem?_map, List.getElem?_mapIdx, Option.map_map]
  refine congrArg (Option.map · r.body[i]?) (funext fun a => ?_)
  by_cases hi : i = position
  · simp [hi, Range.rename]
  · simp [hi, Range.rename]

theorem renames_deriveAgain (r : Rule) (added : Database) (positions : List Nat) :
    Renames σ (IsImage (Prod.map (List.map (List.map σ)) id))
      (deriveAgain (σ := Database) r added positions)
      (deriveAgain (r.rename ρ σ) (added.rename σ) positions) := by
  induction positions with
  | nil => exact .pure rfl
  | cons i positions ih =>
    rw [deriveAgain, deriveAgain, overRecent_rename]
    refine (renames_derive ρ r (r.overRecent i added)).bind fun x _ hx => ?_
    subst hx
    refine ih.bind fun y _ hy => .pure ?_
    subst hy
    refine Prod.ext ?_ rfl
    show (x.1.map (List.map σ) ++ y.1.map (List.map σ)).eraseDups =
      (x.1 ++ y.1).eraseDups.map (List.map σ)
    rw [← List.map_append, eraseDups_map (map_constants_injective σ)]

end Rules

end Datalog
