import Datalog.Proofs.Database.Growth
import Datalog.Storage

/-!
# Outcomes of computations on a storage

A computation on a storage ends in a state, whether it succeeds or fails.  Two kinds of statement
about it are used throughout.

* `Follows x y`: if `x`, on a storage, succeeds, then `y` succeeds on the database held, with the
  same value and the same contents afterwards.
* `Refines G x y`: besides, however `x` ends, it has changed the contents by nothing but insertions
  of atoms of `G`; for empty `G`, not at all.

Both are kept by sequencing.  So a computation that is built from the calls of a storage refines
the computation that is built in the same way from the calls of a database, whatever the storage
refuses.
-/

namespace Datalog

section Outcomes

variable {ε ε' σ α β : Type}

/-- The state in which a computation ends. -/
def finalState : EStateM.Result ε σ α → σ
  | .ok _ s => s
  | .error _ s => s

/-- Whether a computation succeeds. -/
def succeeds : EStateM.Result ε σ α → Bool
  | .ok _ _ => true
  | .error _ _ => false

/-- The value of a computation that succeeds. -/
def value? : EStateM.Result ε σ α → Option α
  | .ok a _ => some a
  | .error _ _ => none

theorem eq_ok_of_succeeds {r : EStateM.Result ε σ α} (h : succeeds r = true) :
    ∃ a, r = .ok a (finalState r) := by
  cases r with
  | ok a s => exact ⟨a, rfl⟩
  | error e s => cases h

theorem eq_error_of_not_succeeds {r : EStateM.Result ε σ α} (h : succeeds r = false) :
    ∃ e, r = .error e (finalState r) := by
  cases r with
  | ok a s => cases h
  | error e s => exact ⟨e, rfl⟩

theorem bind_eq_ok {x : EStateM ε σ α} {f : α → EStateM ε σ β} {s s'' : σ} {b : β} :
    (x >>= f) s = .ok b s'' ↔ ∃ a s', x s = .ok a s' ∧ f a s' = .ok b s'' := by
  show EStateM.bind x f s = .ok b s'' ↔ _
  unfold EStateM.bind
  cases x s with
  | ok a s' => simp
  | error e s' => simp

theorem bind_eq_error {x : EStateM ε σ α} {f : α → EStateM ε σ β} {s s'' : σ} {e : ε} :
    (x >>= f) s = .error e s'' ↔
      x s = .error e s'' ∨ ∃ a s', x s = .ok a s' ∧ f a s' = .error e s'' := by
  show EStateM.bind x f s = .error e s'' ↔ _
  unfold EStateM.bind
  cases x s with
  | ok a s' => simp
  | error e s' => simp

theorem bind_of_eq_ok {x : EStateM ε σ α} (f : α → EStateM ε σ β) {s s' : σ} {a : α}
    (h : x s = .ok a s') : (x >>= f) s = f a s' := by
  show EStateM.bind x f s = f a s'
  unfold EStateM.bind
  rw [h]

theorem bind_of_eq_error {x : EStateM ε σ α} (f : α → EStateM ε σ β) {s s' : σ} {e : ε}
    (h : x s = .error e s') : (x >>= f) s = .error e s' := by
  show EStateM.bind x f s = .error e s'
  unfold EStateM.bind
  rw [h]

theorem pure_eq_ok {s s' : σ} {a b : α} :
    (pure a : EStateM ε σ α) s = .ok b s' ↔ a = b ∧ s = s' := by
  show EStateM.Result.ok a s = .ok b s' ↔ _
  rw [EStateM.Result.ok.injEq]

theorem throw_ne_ok {s s' : σ} {e : ε} {a : α} : (throw e : EStateM ε σ α) s ≠ .ok a s' := by
  intro h
  cases h

theorem map_eq_ok {x : EStateM ε σ α} {f : α → β} {s s' : σ} {b : β} :
    (f <$> x) s = .ok b s' ↔ ∃ a, x s = .ok a s' ∧ f a = b := by
  show EStateM.map f x s = .ok b s' ↔ _
  unfold EStateM.map
  cases x s with
  | ok a s' =>
    simp only [EStateM.Result.ok.injEq]
    constructor
    · rintro ⟨rfl, rfl⟩
      exact ⟨a, ⟨rfl, rfl⟩, rfl⟩
    · rintro ⟨a', ⟨rfl, rfl⟩, rfl⟩
      exact ⟨rfl, rfl⟩
  | error e s' => simp

theorem adaptExcept_eq_ok {x : EStateM ε σ α} {f : ε → ε'} {s s' : σ} {a : α} :
    EStateM.adaptExcept f x s = .ok a s' ↔ x s = .ok a s' := by
  unfold EStateM.adaptExcept
  cases x s <;> simp

/-- What holds after the first part, and is kept by the second part, holds of the whole. -/
theorem finalState_bind {P : σ → Prop} {x : EStateM ε σ α} {f : α → EStateM ε σ β} {s : σ}
    (hx : P (finalState (x s))) (hf : ∀ a s', x s = .ok a s' → P s' → P (finalState (f a s'))) :
    P (finalState ((x >>= f) s)) := by
  cases h : x s with
  | ok a s' =>
    rw [h] at hx
    rw [bind_of_eq_ok f h]
    exact hf a s' h hx
  | error e s' =>
    rw [h] at hx
    rw [bind_of_eq_error f h]
    exact hx

theorem get_bind (f : σ → EStateM ε σ α) (s : σ) : (get >>= f) s = f s s := rfl

theorem finalState_bind_pure (x : EStateM ε σ α) (f : α → β) (s : σ) :
    finalState ((x >>= fun a => pure (f a)) s) = finalState (x s) := by
  cases h : x s with
  | ok a s' =>
    rw [bind_of_eq_ok _ h]
    rfl
  | error e s' =>
    rw [bind_of_eq_error _ h]
    rfl

theorem succeeds_bind_pure (x : EStateM ε σ α) (f : α → β) (s : σ) :
    succeeds ((x >>= fun a => pure (f a)) s) = succeeds (x s) := by
  cases h : x s with
  | ok a s' =>
    rw [bind_of_eq_ok _ h]
    rfl
  | error e s' =>
    rw [bind_of_eq_error _ h]
    rfl

theorem adaptExcept_of_eq_error {x : EStateM ε σ α} {f : ε → ε'} {s s' : σ} {e : ε}
    (h : x s = .error e s') : EStateM.adaptExcept f x s = .error (f e) s' := by
  unfold EStateM.adaptExcept
  rw [h]

end Outcomes

/-! ## Success on a storage and success on a database -/

section Following

variable {σ ε ε' α β : Type} [Storage σ]

/-- Success on a storage is success on the database held, with the same value and contents. -/
def Follows (x : EStateM ε σ α) (y : EStateM ε Database α) : Prop :=
  ∀ s a s', x s = .ok a s' → y (Storage.contents s) = .ok a (Storage.contents s')

theorem follows_pure (a : α) : Follows (σ := σ) (ε := ε) (pure a) (pure a) := by
  intro s b s' h
  obtain ⟨rfl, rfl⟩ := pure_eq_ok.mp h
  rfl

theorem follows_throw (e : ε) :
    Follows (throw e : EStateM ε σ α) (throw e : EStateM ε Database α) :=
  fun _ _ _ h => absurd h throw_ne_ok

theorem Follows.bind {x : EStateM ε σ α} {y : EStateM ε Database α} {f : α → EStateM ε σ β}
    {g : α → EStateM ε Database β} (hx : Follows x y) (hf : ∀ a, Follows (f a) (g a)) :
    Follows (x >>= f) (y >>= g) := by
  intro s b s'' h
  obtain ⟨a, s', hxs, hfs⟩ := bind_eq_ok.mp h
  exact bind_eq_ok.mpr ⟨a, _, hx s a s' hxs, hf a s' b s'' hfs⟩

theorem Follows.adaptExcept {x : EStateM ε σ α} {y : EStateM ε Database α} (hx : Follows x y)
    (f : ε → ε') : Follows (EStateM.adaptExcept f x) (EStateM.adaptExcept f y) := by
  intro s a s' h
  exact adaptExcept_eq_ok.mpr (hx s a s' (adaptExcept_eq_ok.mp h))

namespace Storage

theorem follows_of_faithful {x : EStateM StorageError σ α} {y : EStateM StorageError Database α}
    (h : Faithful contents x y) : Follows x y := by
  intro s a s' hx
  rcases h s with heq | ⟨reason, heq⟩
  · rw [hx] at heq
    exact heq.symm
  · rw [hx] at heq
    cases heq

theorem follows_create (name : Predicate) (arity : Nat) :
    Follows (σ := σ) (create name arity) (create (σ := Database) name arity) :=
  follows_of_faithful (create_faithful name arity)

/-! ## Single calls on a database -/

theorem contents_database (db : Database) : contents db = db := rfl

theorem read_eq_ok {f : Database → Except StorageError α} {db db' : Database} {a : α} :
    Database.read f db = .ok a db' ↔ f db = .ok a ∧ db' = db := by
  unfold Database.read
  cases f db with
  | ok b =>
    simp only [EStateM.Result.ok.injEq, Except.ok.injEq]
    exact and_congr_right fun _ => eq_comm
  | error e => simp

theorem write_eq_ok {f : Database → Except StorageError (α × Database)} {db db' : Database}
    {a : α} : Database.write f db = .ok a db' ↔ f db = .ok (a, db') := by
  unfold Database.write
  cases f db with
  | ok result => simp [Prod.ext_iff]
  | error e => simp

theorem write_eq_error {f : Database → Except StorageError (α × Database)} {db db' : Database}
    {e : StorageError} : Database.write f db = .error e db' ↔ f db = .error e ∧ db' = db := by
  unfold Database.write
  cases f db with
  | ok result => simp
  | error e' =>
    simp only [EStateM.Result.error.injEq, Except.error.injEq]
    exact and_congr_right fun _ => eq_comm

theorem lookup_database_eq_ok {name : Predicate} {pattern : Pattern} {db db' : Database}
    {found : List Tuple} :
    lookup name pattern db = .ok found db' ↔ db.lookup name pattern = .ok found ∧ db' = db := by
  show Database.read (fun db => db.lookup name pattern) db = .ok found db' ↔ _
  exact read_eq_ok

theorem insert_database_eq_ok {name : Predicate} {t : Tuple} {db db' : Database} {isNew : Bool} :
    insert name t db = .ok isNew db' ↔ db.insert name t = .ok (isNew, db') := by
  show Database.write (fun db => db.insert name t) db = .ok isNew db' ↔ _
  exact write_eq_ok

theorem create_database_eq_ok {name : Predicate} {arity : Nat} {db db' : Database} :
    create name arity db = .ok () db' ↔ db.create name arity = .ok db' := by
  show Database.write (fun db => (db.create name arity).map fun db' => ((), db')) db =
    .ok () db' ↔ _
  rw [write_eq_ok]
  cases db.create name arity <;> simp [Except.map]

theorem insert_database_eq_error {name : Predicate} {t : Tuple} {db db' : Database}
    {e : StorageError} :
    insert name t db = .error e db' ↔ db.insert name t = .error e ∧ db' = db := by
  show Database.write (fun db => db.insert name t) db = .error e db' ↔ _
  exact write_eq_error

theorem create_database_eq_error {name : Predicate} {arity : Nat} {db db' : Database}
    {e : StorageError} :
    create name arity db = .error e db' ↔ db.create name arity = .error e ∧ db' = db := by
  show Database.write (fun db => (db.create name arity).map fun db' => ((), db')) db =
    .error e db' ↔ _
  rw [write_eq_error]
  cases db.create name arity <;> simp [Except.map]

/-! ## However a call ends -/

theorem finalState_viewed {ε σ τ α : Type} (view : σ → τ) (r : EStateM.Result ε σ α) :
    finalState (viewed view r) = view (finalState r) := by
  cases r <;> rfl

/-- A call ends with the contents it finds, or with those of the call on the database. -/
theorem contents_finalState {x : EStateM StorageError σ α} {y : EStateM StorageError Database α}
    (h : Faithful contents x y) (s : σ) :
    contents (finalState (x s)) = contents s ∨
      contents (finalState (x s)) = finalState (y (contents s)) := by
  rcases h s with heq | ⟨reason, heq⟩
  · right
    have hfinal := congrArg finalState heq
    rwa [finalState_viewed] at hfinal
  · left
    have hfinal := congrArg finalState heq
    rwa [finalState_viewed] at hfinal

theorem finalState_read (f : Database → Except StorageError α) (db : Database) :
    finalState (Database.read f db) = db := by
  unfold Database.read
  cases f db <;> rfl

theorem finalState_write (f : Database → Except StorageError (α × Database)) (db : Database) :
    finalState (Database.write f db) = db ∨
      ∃ a, f db = .ok (a, finalState (Database.write f db)) := by
  unfold Database.write
  cases f db with
  | ok result => exact Or.inr ⟨result.1, rfl⟩
  | error e => exact Or.inl rfl

/-- However a call to create a relation ends, the relation is created or nothing is. -/
theorem contents_create (name : Predicate) (arity : Nat) (s : σ) :
    contents (finalState (create name arity s)) = contents s ∨
      (contents s).create name arity = .ok (contents (finalState (create name arity s))) := by
  rcases contents_finalState (create_faithful name arity) s with h | h
  · exact Or.inl h
  · rw [h]
    rcases finalState_write (fun db => (db.create name arity).map fun db' => ((), db'))
      (contents s) with hsame | ⟨_, hcreate⟩
    · exact Or.inl hsame
    · right
      cases hdb : (contents s).create name arity with
      | error e =>
        rw [hdb] at hcreate
        cases hcreate
      | ok db =>
        rw [hdb] at hcreate
        have hdb' := (Prod.mk.inj (Except.ok.inj hcreate)).2
        exact congrArg Except.ok hdb'

end Storage

/-! ## Refinement -/

/-- The computation follows the one on databases, and however it ends, it has inserted nothing but
atoms of `G`. -/
structure Refines (G : Interpretation) (x : EStateM ε σ α) (y : EStateM ε Database α) : Prop where
  follows : Follows x y
  grown : ∀ s, (Storage.contents s).Grown G (Storage.contents (finalState (x s)))

namespace Refines

variable {G : Interpretation} {x : EStateM ε σ α} {y : EStateM ε Database α}

theorem pure (a : α) : Refines (σ := σ) (ε := ε) G (Pure.pure a) (Pure.pure a) :=
  ⟨follows_pure a, fun _ => .refl _⟩

theorem throw (e : ε) :
    Refines G (MonadExcept.throw e : EStateM ε σ α) (MonadExcept.throw e : EStateM ε Database α) :=
  ⟨follows_throw e, fun _ => .refl _⟩

theorem bind {f : α → EStateM ε σ β} {g : α → EStateM ε Database β} (hx : Refines G x y)
    (hf : ∀ a, Refines G (f a) (g a)) : Refines G (x >>= f) (y >>= g) := by
  refine ⟨hx.follows.bind fun a => (hf a).follows, fun s => ?_⟩
  exact finalState_bind (P := fun s' => (Storage.contents s).Grown G (Storage.contents s'))
    (hx.grown s) fun a s' _ hs' => hs'.trans ((hf a).grown s')

end Refines

namespace Storage

theorem refines_lookup (G : Interpretation) (name : Predicate) (pattern : Pattern) :
    Refines G (lookup (σ := σ) name pattern) (lookup (σ := Database) name pattern) := by
  refine ⟨follows_of_faithful (lookup_faithful name pattern), fun s => ?_⟩
  have hsame : contents (finalState (lookup name pattern s)) = contents s := by
    rcases contents_finalState (lookup_faithful name pattern) s with h | h
    · exact h
    · exact h.trans (finalState_read _ _)
  rw [hsame]
  exact .refl _

theorem refines_insert {G : Interpretation} {name : Predicate} {t : Tuple} (hG : (name, t) ∈ G) :
    Refines G (insert (σ := σ) name t) (insert (σ := Database) name t) := by
  refine ⟨follows_of_faithful (insert_faithful name t), fun s => ?_⟩
  rcases contents_finalState (insert_faithful name t) s with h | h
  · rw [h]
    exact .refl _
  · rw [h]
    rcases finalState_write (fun db => db.insert name t) (contents s) with hsame | ⟨isNew, hins⟩
    · show (contents s).Grown G (finalState (Database.write _ _))
      rw [hsame]
      exact .refl _
    · exact .single hG hins

/-- A call to insert has inserted the tuple, or it fails and changes nothing. -/
theorem contents_insert (name : Predicate) (t : Tuple) (s : σ) :
    (succeeds (insert name t s) = true ∧ ∃ isNew,
      (contents s).insert name t = .ok (isNew, contents (finalState (insert name t s)))) ∨
    (succeeds (insert name t s) = false ∧
      contents (finalState (insert name t s)) = contents s) := by
  cases hrun : insert name t s with
  | ok isNew s' =>
    have hdb := follows_of_faithful (insert_faithful name t) s isNew s' hrun
    exact Or.inl ⟨rfl, isNew, insert_database_eq_ok.mp hdb⟩
  | error e s' =>
    refine Or.inr ⟨rfl, ?_⟩
    rcases insert_faithful name t s with h | ⟨reason, h⟩
    · rw [hrun] at h
      rcases finalState_write (fun db => db.insert name t) (contents s) with hsame | ⟨isNew, hins⟩
      · have hfinal := congrArg finalState h
        exact hfinal.trans hsame
      · have hcall := insert_database_eq_ok.mpr hins
        rw [show Database.insertCall name t (contents s) = _ from hcall] at h
        cases h
    · rw [hrun] at h
      exact (EStateM.Result.error.inj h).2

/-- The contents stay reachable, however a call ends. -/
theorem reachable_create (name : Predicate) (arity : Nat) {s : σ} (h : (contents s).Reachable) :
    (contents (finalState (create name arity s))).Reachable := by
  rcases contents_create name arity s with hsame | hcreate
  · rw [hsame]
    exact h
  · exact h.create hcreate

theorem reachable_insert (name : Predicate) (t : Tuple) {s : σ} (h : (contents s).Reachable) :
    (contents (finalState (insert name t s))).Reachable :=
  ((refines_insert (Set.mem_univ (name, t))).grown s).reachable h

end Storage

end Following

end Datalog
