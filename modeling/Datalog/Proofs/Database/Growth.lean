import Datalog.Proofs.Database.Reachable

/-!
# Databases that grow by insertions

All that evaluation does to a database is to insert tuples, and wherever it is interrupted, the
database has been reached by some of these insertions.  `Database.Grown G db db'` says that
insertions of atoms from `G` lead from `db` to `db'`; what holds of every single insertion then
holds of every evaluation, complete or not.
-/

namespace Datalog

namespace Database

/-- Insertions of ground atoms of `G` lead from one database to another. -/
inductive Grown (G : Interpretation) : Database → Database → Prop where
  | refl (db : Database) : Grown G db db
  | insert {db db₁ db₂ : Database} {name : Predicate} {t : Tuple} {isNew : Bool} :
      Grown G db db₁ → (name, t) ∈ G → db₁.insert name t = .ok (isNew, db₂) → Grown G db db₂

namespace Grown

variable {G H : Interpretation} {db db₁ db₂ : Database}

theorem trans (h₁ : Grown G db db₁) (h₂ : Grown G db₁ db₂) : Grown G db db₂ := by
  induction h₂ with
  | refl => exact h₁
  | insert _ hG hinsert ih => exact ih.insert hG hinsert

theorem mono (hGH : G ⊆ H) (h : Grown G db db₁) : Grown H db db₁ := by
  induction h with
  | refl => exact .refl db
  | insert _ hG hinsert ih => exact ih.insert (hGH hG) hinsert

theorem single {name : Predicate} {t : Tuple} {isNew : Bool} (hG : (name, t) ∈ G)
    (h : db.insert name t = .ok (isNew, db₁)) : Grown G db db₁ := (Grown.refl db).insert hG h

theorem reachable (h : Grown G db db₁) (hdb : db.Reachable) : db₁.Reachable := by
  induction h with
  | refl => exact hdb
  | insert _ _ hinsert ih => exact ih.insert hinsert

theorem wellFormed (h : Grown G db db₁) (hdb : db.WellFormed) : db₁.WellFormed := by
  induction h with
  | refl => exact hdb
  | insert _ _ hinsert ih => exact ih.insert hinsert

theorem names (h : Grown G db db₁) : db₁.names = db.names := by
  induction h with
  | refl => rfl
  | insert _ _ hinsert ih => rw [(inserted_of_insert hinsert).names, ih]

theorem arity? (h : Grown G db db₁) (name : Predicate) : db₁.arity? name = db.arity? name := by
  induction h with
  | refl => rfl
  | insert _ _ hinsert ih => rw [(inserted_of_insert hinsert).arity?, ih]

/-- Tuples are only ever added behind those that are there. -/
theorem prefix_tuples (h : Grown G db db₁) (name : Predicate) :
    db.tuples name <+: db₁.tuples name := by
  induction h with
  | refl => exact List.prefix_refl _
  | @insert db₂ db₃ other t _ _ _ hinsert ih =>
    have hins := inserted_of_insert hinsert
    refine ih.trans ?_
    by_cases hne : name = other
    · rw [hne, hins.tuples_self]
      exact prefix_arrive _ t
    · have hsame := tuples_congr (hins.find?_of_ne name hne)
      exact hsame ▸ List.prefix_refl _

theorem holds_subset (h : Grown G db db₁) : db.holds ⊆ db₁.holds :=
  fun g hg => (h.prefix_tuples g.1).subset hg

theorem holds_subset_union (h : Grown G db db₁) : db₁.holds ⊆ db.holds ∪ G := by
  induction h with
  | refl => exact Set.subset_union_left
  | insert _ hG hinsert ih =>
    rw [(inserted_of_insert hinsert).holds]
    refine Set.union_subset ih ?_
    exact Set.singleton_subset_iff.mpr (Or.inr hG)

/-- A relation that none of the atoms belongs to stays as it is. -/
theorem find?_of_forall_ne (h : Grown G db db₁) {name : Predicate} (hname : ∀ g ∈ G, g.1 ≠ name) :
    db₁.relations.find? name = db.relations.find? name := by
  induction h with
  | refl => rfl
  | insert _ hG hinsert ih =>
    rw [(inserted_of_insert hinsert).find?_of_ne name (hname _ hG).symm, ih]

/-- Insertions of nothing change nothing. -/
theorem eq_of_empty (h : Grown ∅ db db₁) : db₁ = db := by
  induction h with
  | refl => rfl
  | insert _ hG _ _ => exact absurd hG (Set.notMem_empty _)

/-- Insertions that state nothing new change nothing, not even the order of the tuples. -/
theorem eq_of_holds_subset (h : Grown G db db₁) (hsub : db₁.holds ⊆ db.holds) : db₁ = db := by
  induction h with
  | refl => rfl
  | @insert db₁ db₂ name t _ hgrown _ hinsert ih =>
    have hins := inserted_of_insert hinsert
    have hmid : db₁.holds ⊆ db.holds := by
      rw [hins.holds] at hsub
      exact Set.subset_union_left.trans hsub
    have hthere : (name, t) ∈ db₁.holds := by
      refine hgrown.holds_subset (hsub ?_)
      rw [hins.holds]
      exact Or.inr rfl
    rw [← ih hmid]
    exact eq_of_insert_of_mem hinsert hthere

end Grown

end Database

end Datalog
