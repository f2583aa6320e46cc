import Datalog.Database
import Datalog.Proofs.Interpretation
import Datalog.Proofs.Relation.Matching

/-!
# Databases that calls can build

A database comes about by creating relations and inserting tuples.  Every such database has distinct
names and well-formed relations, and about such a database each call is described by what it does to
the tuples of each relation.

* `Database.holds`: the ground atoms that a database states.
* `Database.Reachable`, `Database.WellFormed`: what calls can build, and the invariant.
* `Database.Created`, `Database.Inserted`: all that a successful call does.
* `Database.listing`: the stated atoms in a list, each once.
-/

namespace Datalog

namespace Database

/-- The ground atoms that a database states. -/
def holds (db : Database) : Interpretation := {g | g.2 ∈ db.tuples g.1}

/-- Databases that come about by creating relations and inserting tuples. -/
inductive Reachable : Database → Prop where
  /-- The database without relations. -/
  | empty : Reachable ∅
  /-- A relation has been created. -/
  | create {db db' : Database} {name : Predicate} {arity : Nat} :
      Reachable db → db.create name arity = .ok db' → Reachable db'
  /-- A tuple has been inserted. -/
  | insert {db db' : Database} {name : Predicate} {t : Tuple} {isNew : Bool} :
      Reachable db → db.insert name t = .ok (isNew, db') → Reachable db'

/-- Distinct names and well-formed relations. -/
structure WellFormed (db : Database) : Prop where
  /-- No name is used twice. -/
  nodup_names : db.names.Nodup
  /-- Every relation is well formed. -/
  relation : ∀ {name : Predicate} {r : Relation}, db.relations.find? name = some r → r.WellFormed

/-! ## Reading a database -/

theorem mem_holds {db : Database} {name : Predicate} {t : Tuple} :
    (name, t) ∈ db.holds ↔ t ∈ db.tuples name := Iff.rfl

theorem tuples_of_find? {db : Database} {name : Predicate} {r : Relation}
    (h : db.relations.find? name = some r) : db.tuples name = r.tuples := by
  unfold tuples
  rw [h]

theorem arity?_of_find? {db : Database} {name : Predicate} {r : Relation}
    (h : db.relations.find? name = some r) : db.arity? name = some r.arity := by
  unfold arity?
  rw [h]
  rfl

theorem tuples_of_find?_eq_none {db : Database} {name : Predicate}
    (h : db.relations.find? name = none) : db.tuples name = [] := by
  unfold tuples
  rw [h]

theorem arity?_eq_none_iff {db : Database} {name : Predicate} :
    db.arity? name = none ↔ db.relations.find? name = none := Option.map_eq_none_iff

theorem arity?_eq_some_iff {db : Database} {name : Predicate} {arity : Nat} :
    db.arity? name = some arity ↔
      ∃ r, db.relations.find? name = some r ∧ r.arity = arity := Option.map_eq_some_iff

theorem tuples_congr {db db' : Database} {name : Predicate}
    (h : db'.relations.find? name = db.relations.find? name) :
    db'.tuples name = db.tuples name := by
  unfold tuples
  rw [h]

theorem arity?_congr {db db' : Database} {name : Predicate}
    (h : db'.relations.find? name = db.relations.find? name) :
    db'.arity? name = db.arity? name := by
  unfold arity?
  rw [h]

theorem mem_names_iff {db : Database} {name : Predicate} :
    name ∈ db.names ↔ db.arity? name ≠ none := by
  rw [ne_eq, arity?_eq_none_iff, Table.find?_eq_none_iff, not_not]
  rfl

@[simp] theorem arity?_empty (name : Predicate) : (∅ : Database).arity? name = none := rfl

@[simp] theorem tuples_empty (name : Predicate) : (∅ : Database).tuples name = [] := rfl

@[simp] theorem holds_empty : (∅ : Database).holds = ∅ := by
  ext g
  simp [holds]

theorem WellFormed.empty : (∅ : Database).WellFormed where
  nodup_names := List.nodup_nil
  relation h := by cases h

/-- Every stored tuple has the arity of its relation. -/
theorem WellFormed.arity?_of_mem {db : Database} (h : db.WellFormed) {name : Predicate}
    {t : Tuple} (ht : t ∈ db.tuples name) : db.arity? name = some t.length := by
  cases hr : db.relations.find? name with
  | none =>
    rw [tuples_of_find?_eq_none hr] at ht
    exact absurd ht List.not_mem_nil
  | some r =>
    rw [tuples_of_find? hr] at ht
    rw [arity?_of_find? hr, (h.relation hr).length_tuple t ht]

theorem WellFormed.nodup_tuples {db : Database} (h : db.WellFormed) (name : Predicate) :
    (db.tuples name).Nodup := by
  cases hr : db.relations.find? name with
  | none =>
    rw [tuples_of_find?_eq_none hr]
    exact List.nodup_nil
  | some r =>
    rw [tuples_of_find? hr]
    exact (h.relation hr).nodup

theorem relation_eq_ok_iff {db : Database} {name : Predicate} {arity : Nat} {r : Relation} :
    db.relation name arity = .ok r ↔ db.relations.find? name = some r ∧ r.arity = arity := by
  unfold relation
  cases hr : db.relations.find? name with
  | none => simp
  | some r' =>
    simp only [Option.some.injEq]
    split
    · next h =>
      rw [Except.ok.injEq]
      exact ⟨fun e => ⟨e, e ▸ h⟩, fun e => e.1⟩
    · next h =>
      refine ⟨fun e => absurd e (by simp), ?_⟩
      rintro ⟨rfl, harity⟩
      exact absurd harity h

/-- A look-up succeeds for a pattern of the relation's arity, and gives the tuples that fit. -/
theorem WellFormed.lookup_eq_ok_iff {db : Database} (h : db.WellFormed) {name : Predicate}
    {pattern : Pattern} {found : List Tuple} :
    db.lookup name pattern = .ok found ↔
      db.arity? name = some pattern.length ∧ found = (db.tuples name).filter pattern.fits := by
  have hlookup : db.lookup name pattern =
      (db.relation name pattern.length).map fun r => r.matching pattern := by
    unfold lookup
    cases db.relation name pattern.length <;> rfl
  rw [hlookup, arity?_eq_some_iff]
  constructor
  · intro hok
    cases hr : db.relation name pattern.length with
    | error e =>
      rw [hr] at hok
      cases hok
    | ok r =>
      rw [hr] at hok
      obtain ⟨hfind, harity⟩ := relation_eq_ok_iff.mp hr
      refine ⟨⟨r, hfind, harity⟩, ?_⟩
      rw [tuples_of_find? hfind, ← (h.relation hfind).matching_eq_filter harity.symm]
      exact (Except.ok.inj hok).symm
  · rintro ⟨⟨r, hfind, harity⟩, rfl⟩
    rw [relation_eq_ok_iff.mpr ⟨hfind, harity⟩, tuples_of_find? hfind,
      ← (h.relation hfind).matching_eq_filter harity.symm]
    rfl

/-! ## Creating a relation -/

/-- All that a successful creation does: the relation is there afterwards, and if it was not there
before, it is new and empty. -/
structure Created (db : Database) (name : Predicate) (arity : Nat) (db' : Database) : Prop where
  /-- The name stands behind the others, unless it was there. -/
  names : db'.names = arrive db.names name
  /-- The relation has the arity asked for. -/
  arity?_self : db'.arity? name = some arity
  /-- Other relations stay as they are. -/
  find?_of_ne : ∀ other, other ≠ name → db'.relations.find? other = db.relations.find? other
  /-- A relation that was there stays as it is. -/
  eq_of_mem : name ∈ db.names → db' = db
  /-- No tuple comes or goes. -/
  tuples : ∀ other, db'.tuples other = db.tuples other

theorem created_of_create {db db' : Database} {name : Predicate} {arity : Nat}
    (h : db.create name arity = .ok db') : Created db name arity db' := by
  unfold create at h
  cases hr : db.relations.find? name with
  | some r =>
    rw [hr] at h
    simp only at h
    split at h
    · next harity =>
      rw [Except.ok.injEq] at h
      subst h
      have hmem : name ∈ db.names := Table.mem_keys_iff.mpr ⟨r, hr⟩
      refine ⟨(arrive_of_mem hmem).symm, ?_, fun _ _ => rfl, fun _ => rfl, fun _ => rfl⟩
      rw [arity?_of_find? hr, harity]
    · cases h
  | none =>
    rw [hr] at h
    simp only [Except.ok.injEq] at h
    subst h
    have hself : (db.relations.insertNew name (Relation.empty arity)).find? name =
        some (Relation.empty arity) := by
      rw [Table.find?_insertNew, if_pos rfl, hr]
      rfl
    have hother : ∀ other, other ≠ name →
        (db.relations.insertNew name (Relation.empty arity)).find? other =
          db.relations.find? other := by
      intro other hne
      rw [Table.find?_insertNew, if_neg hne]
    refine ⟨Table.keys_upsert _ _ _, arity?_of_find? hself, hother, ?_, ?_⟩
    · exact fun hmem => absurd hmem (Table.find?_eq_none_iff.mp hr)
    · intro other
      by_cases hne : other = name
      · subst hne
        rw [tuples_of_find?_eq_none hr]
        exact tuples_of_find? hself
      · exact tuples_congr (hother other hne)

/-- A relation can be created unless there is one of another arity. -/
theorem create_eq_ok {db : Database} {name : Predicate} {arity : Nat}
    (h : ∀ k, db.arity? name = some k → k = arity) : ∃ db', db.create name arity = .ok db' := by
  unfold create
  cases hr : db.relations.find? name with
  | none => exact ⟨_, rfl⟩
  | some r =>
    have harity : r.arity = arity := h r.arity (arity?_of_find? hr)
    simp only [harity, if_true]
    exact ⟨_, rfl⟩

theorem Created.holds {db db' : Database} {name : Predicate} {arity : Nat}
    (h : Created db name arity db') : db'.holds = db.holds := by
  ext ⟨other, t⟩
  rw [mem_holds, mem_holds, h.tuples]

/-- The arity of a relation never changes. -/
theorem Created.arity?_of_eq_some {db db' : Database} {name other : Predicate} {arity k : Nat}
    (h : Created db name arity db') (hk : db.arity? other = some k) :
    db'.arity? other = some k := by
  by_cases hne : other = name
  · subst hne
    have hmem : other ∈ db.names := by
      rw [mem_names_iff, hk]
      exact Option.some_ne_none k
    rw [h.eq_of_mem hmem, hk]
  · rw [arity?_congr (h.find?_of_ne other hne), hk]

theorem WellFormed.create {db db' : Database} (hdb : db.WellFormed) {name : Predicate}
    {arity : Nat} (h : db.create name arity = .ok db') : db'.WellFormed := by
  unfold Database.create at h
  cases hr : db.relations.find? name with
  | some r =>
    rw [hr] at h
    simp only at h
    split at h
    · rw [Except.ok.injEq] at h
      rw [← h]
      exact hdb
    · cases h
  | none =>
    rw [hr] at h
    simp only [Except.ok.injEq] at h
    subst h
    refine ⟨Table.nodup_keys_upsert hdb.nodup_names _ _, ?_⟩
    intro other r hfind
    rw [Table.find?_insertNew] at hfind
    by_cases hne : other = name
    · rw [if_pos hne, hr] at hfind
      rw [← Option.some.inj hfind]
      exact Relation.wellFormed_empty arity
    · rw [if_neg hne] at hfind
      exact hdb.relation hfind

/-! ## Inserting a tuple -/

/-- All that a successful insertion does: the tuple stands behind the others of its relation, unless
it was there, and the flag says whether it is new. -/
structure Inserted (db : Database) (name : Predicate) (t : Tuple) (isNew : Bool)
    (db' : Database) : Prop where
  /-- The relation is there, and the tuple has its arity. -/
  arity?_self : db.arity? name = some t.length
  /-- The flag of the call. -/
  isNew_eq : isNew = decide (t ∉ db.tuples name)
  /-- No relation comes or goes. -/
  names : db'.names = db.names
  /-- Other relations stay as they are. -/
  find?_of_ne : ∀ other, other ≠ name → db'.relations.find? other = db.relations.find? other
  /-- No arity changes. -/
  arity? : ∀ other, db'.arity? other = db.arity? other
  /-- The tuples of the relation. -/
  tuples_self : db'.tuples name = arrive (db.tuples name) t

theorem insert_of_find? {db : Database} {name : Predicate} {t : Tuple} {r : Relation}
    (hr : db.relations.find? name = some r) (ht : r.arity = t.length) :
    db.insert name t =
      .ok ((r.insert t).1, ⟨db.relations.upsert name fun _ => (r.insert t).2⟩) := by
  unfold insert
  rw [relation_eq_ok_iff.mpr ⟨hr, ht⟩]
  rfl

theorem find?_of_insert {db : Database} {name : Predicate} {t : Tuple} {result : Bool × Database}
    (h : db.insert name t = .ok result) :
    ∃ r, db.relations.find? name = some r ∧ r.arity = t.length := by
  unfold insert at h
  cases hr : db.relation name t.length with
  | error e =>
    rw [hr] at h
    cases h
  | ok r => exact ⟨r, relation_eq_ok_iff.mp hr⟩

theorem inserted_of_insert {db db' : Database} {name : Predicate} {t : Tuple} {isNew : Bool}
    (h : db.insert name t = .ok (isNew, db')) : Inserted db name t isNew db' := by
  obtain ⟨r, hr, ht⟩ := find?_of_insert h
  rw [insert_of_find? hr ht, Except.ok.injEq, Prod.mk.injEq] at h
  obtain ⟨rfl, rfl⟩ := h
  have hself : (db.relations.upsert name fun _ => (r.insert t).2).find? name =
      some (r.insert t).2 := by
    rw [Table.find?_upsert, if_pos rfl]
  have hother : ∀ other, other ≠ name →
      (db.relations.upsert name fun _ => (r.insert t).2).find? other =
        db.relations.find? other := by
    intro other hne
    rw [Table.find?_upsert, if_neg hne]
  refine ⟨?_, ?_, ?_, hother, ?_, ?_⟩
  · rw [arity?_of_find? hr, ht]
  · rw [tuples_of_find? hr, Relation.insert_fst]
  · exact Table.keys_upsert_of_mem (Table.mem_keys_iff.mpr ⟨r, hr⟩) _
  · intro other
    by_cases hne : other = name
    · subst hne
      rw [arity?_of_find? hr, ← Relation.arity_insert r t]
      exact arity?_of_find? hself
    · exact arity?_congr (hother other hne)
  · rw [tuples_of_find? hr, ← Relation.tuples_insert]
    exact tuples_of_find? hself

/-- A tuple of the relation's arity can be inserted. -/
theorem insert_eq_ok {db : Database} {name : Predicate} {t : Tuple}
    (h : db.arity? name = some t.length) :
    ∃ isNew db', db.insert name t = .ok (isNew, db') := by
  obtain ⟨r, hr, ht⟩ := arity?_eq_some_iff.mp h
  exact ⟨_, _, insert_of_find? hr ht⟩

theorem WellFormed.insert {db db' : Database} (hdb : db.WellFormed) {name : Predicate} {t : Tuple}
    {isNew : Bool} (h : db.insert name t = .ok (isNew, db')) : db'.WellFormed := by
  obtain ⟨r, hr, ht⟩ := find?_of_insert h
  rw [insert_of_find? hr ht, Except.ok.injEq, Prod.mk.injEq] at h
  obtain ⟨-, rfl⟩ := h
  refine ⟨Table.nodup_keys_upsert hdb.nodup_names _ _, ?_⟩
  intro other r' hfind
  rw [Table.find?_upsert] at hfind
  by_cases hne : other = name
  · rw [if_pos hne] at hfind
    rw [← Option.some.inj hfind]
    exact (hdb.relation hr).insert ht.symm
  · rw [if_neg hne] at hfind
    exact hdb.relation hfind

theorem Inserted.mem_tuples_iff {db db' : Database} {name other : Predicate} {t u : Tuple}
    {isNew : Bool} (h : Inserted db name t isNew db') :
    u ∈ db'.tuples other ↔ u ∈ db.tuples other ∨ (other, u) = (name, t) := by
  by_cases hne : other = name
  · subst hne
    rw [h.tuples_self, mem_arrive, Prod.mk.injEq, and_iff_right rfl]
  · rw [tuples_congr (h.find?_of_ne other hne), Prod.mk.injEq]
    exact ⟨Or.inl, fun hu => hu.resolve_right fun e => hne e.1⟩

theorem Inserted.holds {db db' : Database} {name : Predicate} {t : Tuple} {isNew : Bool}
    (h : Inserted db name t isNew db') : db'.holds = db.holds ∪ {(name, t)} := by
  ext ⟨other, u⟩
  rw [mem_holds, h.mem_tuples_iff, Set.mem_union, mem_holds, Set.mem_singleton_iff]

/-- To insert a tuple that is there changes nothing. -/
theorem eq_of_insert_of_mem {db db' : Database} {name : Predicate} {t : Tuple} {isNew : Bool}
    (h : db.insert name t = .ok (isNew, db')) (ht : t ∈ db.tuples name) : db' = db := by
  obtain ⟨r, hr, harity⟩ := find?_of_insert h
  rw [tuples_of_find? hr] at ht
  rw [insert_of_find? hr harity, Relation.insert, if_pos ht, Table.upsert_of_find? hr] at h
  exact (Prod.mk.inj (Except.ok.inj h)).2.symm

/-- **Every database that calls can build is well formed.** -/
theorem Reachable.wellFormed {db : Database} (h : db.Reachable) : db.WellFormed := by
  induction h with
  | empty => exact WellFormed.empty
  | create _ hcreate ih => exact ih.create hcreate
  | insert _ hinsert ih => exact ih.insert hinsert

/-! ## The stated atoms as a list -/

/-- The atoms that a database states, relation by relation. -/
def listing (db : Database) : List GroundAtom :=
  db.relations.entries.flatMap fun e => e.2.tuples.map fun t => (e.1, t)

theorem WellFormed.mem_listing {db : Database} (h : db.WellFormed) {g : GroundAtom} :
    g ∈ db.listing ↔ g ∈ db.holds := by
  obtain ⟨name, t⟩ := g
  unfold listing
  rw [List.mem_flatMap, mem_holds]
  constructor
  · rintro ⟨⟨n, r⟩, he, ht⟩
    obtain ⟨u, hu, heq⟩ := List.mem_map.mp ht
    obtain ⟨rfl, rfl⟩ := Prod.mk.inj heq
    rw [tuples_of_find? (Table.find?_of_mem_entries h.nodup_names he)]
    exact hu
  · intro ht
    cases hr : db.relations.find? name with
    | none =>
      rw [tuples_of_find?_eq_none hr] at ht
      exact absurd ht List.not_mem_nil
    | some r =>
      rw [tuples_of_find? hr] at ht
      exact ⟨(name, r), Table.mem_entries_of_find? hr, List.mem_map_of_mem ht⟩

theorem WellFormed.nodup_listing {db : Database} (h : db.WellFormed) : db.listing.Nodup := by
  unfold listing
  rw [List.nodup_flatMap]
  constructor
  · rintro ⟨name, r⟩ he
    have hr := h.relation (Table.find?_of_mem_entries h.nodup_names he)
    exact hr.nodup.map fun t u htu => (Prod.mk.inj htu).2
  · have hkeys : db.relations.entries.Pairwise fun e e' => e.1 ≠ e'.1 :=
      List.pairwise_map.mp h.nodup_names
    refine hkeys.imp ?_
    intro e e' hne g hg hg'
    obtain ⟨t, -, rfl⟩ := List.mem_map.mp hg
    obtain ⟨t', -, heq⟩ := List.mem_map.mp hg'
    exact hne (Prod.mk.inj heq).1.symm

theorem length_listing (db : Database) : db.listing.length = db.totalTuples := by
  unfold listing totalTuples Table.values
  induction db.relations.entries with
  | nil => rfl
  | cons e es ih =>
    rw [List.flatMap_cons, List.length_append, ih, List.length_map, List.map_cons, List.map_cons,
      total_cons]

/-- The number of tuples is that of the atoms stated. -/
theorem WellFormed.totalTuples_congr {db db' : Database} (h : db.WellFormed) (h' : db'.WellFormed)
    (heq : db.holds = db'.holds) : db.totalTuples = db'.totalTuples := by
  rw [← length_listing, ← length_listing]
  refine List.Perm.length_eq ?_
  rw [List.perm_ext_iff_of_nodup h.nodup_listing h'.nodup_listing]
  intro g
  rw [h.mem_listing, h'.mem_listing, heq]

theorem WellFormed.totalTuples_eq_zero_iff {db : Database} (h : db.WellFormed) :
    db.totalTuples = 0 ↔ db.holds = ∅ := by
  rw [← length_listing, List.length_eq_zero_iff, Set.eq_empty_iff_forall_notMem,
    List.eq_nil_iff_forall_not_mem]
  exact forall_congr' fun g => not_congr h.mem_listing

/-- The values of a database are those of the atoms it states. -/
theorem WellFormed.mem_constants {db : Database} (h : db.WellFormed) {c : Constant} :
    c ∈ db.constants ↔ ∃ g ∈ db.holds, c ∈ g.2 := by
  unfold constants
  rw [List.mem_eraseDups, List.mem_flatMap]
  constructor
  · rintro ⟨r, hr, hc⟩
    obtain ⟨name, hname⟩ := (Table.mem_values_iff h.nodup_names).mp hr
    obtain ⟨t, ht, hct⟩ := List.mem_flatten.mp hc
    refine ⟨(name, t), ?_, hct⟩
    rw [mem_holds, tuples_of_find? hname]
    exact ht
  · rintro ⟨⟨name, t⟩, ht, hc⟩
    rw [mem_holds] at ht
    cases hr : db.relations.find? name with
    | none =>
      rw [tuples_of_find?_eq_none hr] at ht
      exact absurd ht List.not_mem_nil
    | some r =>
      rw [tuples_of_find? hr] at ht
      exact ⟨r, (Table.mem_values_iff h.nodup_names).mpr ⟨name, hr⟩,
        List.mem_flatten.mpr ⟨t, ht, hc⟩⟩

end Database

end Datalog
