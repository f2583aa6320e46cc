import Datalog.Proofs.Outcome

/-!
# What a database answers after any calls

A database that starts without relations and has been changed by any calls, successful or not, is
well formed (`Database.reachable_ofChanges`).  What it answers about a relation is then determined
by the list of the tuples of the relation: a look-up filters this list, whichever entries of the
position index it goes through, and a question for a single tuple is a look-up of a pattern without
holes (`Database.lookup_filters_scan`).
-/

namespace Datalog

/-- A tuple fits a pattern if it has the bound value at every bound position. -/
theorem Pattern.fits_iff_forall_zip {pattern : Pattern} {t : Tuple} :
    pattern.fits t = true ↔ ∀ e ∈ pattern.zip t, e.1 = none ∨ e.1 = some e.2 := by
  induction pattern generalizing t with
  | nil => simp [fits]
  | cons bound bounds ih =>
    cases t with
    | nil => simp [fits]
    | cons v vs =>
      rw [List.zip_cons_cons, List.forall_mem_cons, ← ih]
      cases bound with
      | none => simp [fits]
      | some c => simp [fits]

/-- Only the tuple itself fits a pattern without holes. -/
theorem Pattern.fits_map_some {t u : Tuple} (h : t.length = u.length) :
    Pattern.fits (t.map some) u = decide (t = u) := by
  induction t generalizing u with
  | nil =>
    rw [List.eq_nil_of_length_eq_zero h.symm]
    rfl
  | cons c t ih =>
    cases u with
    | nil => cases h
    | cons v u => simp [fits, ih (Nat.succ.inj h)]

namespace Database

/-- A call that may change a database. -/
inductive Change where
  /-- To add an empty relation. -/
  | create (name : Predicate) (arity : Nat)
  /-- To add a tuple to a relation. -/
  | insert (name : Predicate) (t : Tuple)
  deriving DecidableEq, Repr

/-- The database after a call, whether the call succeeds or fails. -/
def change (db : Database) : Change → Database
  | .create name arity => finalState (Storage.create name arity db)
  | .insert name t => finalState (Storage.insert name t db)

/-- The database after calls that start from the database without relations. -/
def ofChanges (changes : List Change) : Database := changes.foldl change ∅

theorem Reachable.change {db : Database} (h : db.Reachable) (c : Change) :
    (db.change c).Reachable := by
  cases c with
  | create name arity => exact Storage.reachable_create (σ := Database) name arity h
  | insert name t => exact Storage.reachable_insert (σ := Database) name t h

theorem Reachable.foldl_change {db : Database} (h : db.Reachable) (changes : List Change) :
    (changes.foldl Database.change db).Reachable := by
  induction changes generalizing db with
  | nil => exact h
  | cons c changes ih => exact ih (h.change c)

theorem reachable_ofChanges (changes : List Change) : (ofChanges changes).Reachable :=
  Reachable.empty.foldl_change changes

/-! ## Answers -/

variable {db : Database} {name : Predicate}

theorem scan_of_arity?_eq_none (h : db.arity? name = none) :
    db.scan name = .error (.unknownRelation name) := by
  unfold scan
  rw [arity?_eq_none_iff.mp h]

theorem scan_of_arity?_eq_some {arity : Nat} (h : db.arity? name = some arity) :
    db.scan name = .ok (db.tuples name) := by
  obtain ⟨r, hr, -⟩ := arity?_eq_some_iff.mp h
  unfold scan
  rw [tuples_of_find? hr, hr]

theorem relation_of_arity?_eq_none (h : db.arity? name = none) (arity : Nat) :
    db.relation name arity = .error (.unknownRelation name) := by
  unfold relation
  rw [arity?_eq_none_iff.mp h]

theorem relation_of_arity?_ne {arity wanted : Nat} (h : db.arity? name = some arity)
    (hne : wanted ≠ arity) :
    db.relation name wanted = .error (.arityMismatch name arity wanted) := by
  obtain ⟨r, hr, rfl⟩ := arity?_eq_some_iff.mp h
  unfold relation
  rw [hr]
  exact if_neg hne.symm

theorem lookup_of_relation_eq_error {pattern : Pattern} {e : StorageError}
    (h : db.relation name pattern.length = .error e) : db.lookup name pattern = .error e := by
  unfold lookup
  rw [h]
  rfl

theorem contains_of_relation_eq_error {t : Tuple} {e : StorageError}
    (h : db.relation name t.length = .error e) : db.contains name t = .error e := by
  unfold contains
  rw [h]
  rfl

/-- To ask for a tuple succeeds for a tuple of the relation's arity, and tells membership. -/
theorem contains_eq_ok_iff {t : Tuple} {b : Bool} :
    db.contains name t = .ok b ↔
      db.arity? name = some t.length ∧ b = decide (t ∈ db.tuples name) := by
  rw [arity?_eq_some_iff]
  constructor
  · intro hok
    cases hr : db.relation name t.length with
    | error e =>
      rw [contains_of_relation_eq_error hr] at hok
      cases hok
    | ok r =>
      obtain ⟨hfind, harity⟩ := relation_eq_ok_iff.mp hr
      unfold contains at hok
      rw [hr] at hok
      rw [tuples_of_find? hfind]
      exact ⟨⟨r, hfind, harity⟩, (Except.ok.inj hok).symm⟩
  · rintro ⟨⟨r, hfind, harity⟩, rfl⟩
    unfold contains
    rw [relation_eq_ok_iff.mpr ⟨hfind, harity⟩, tuples_of_find? hfind]
    rfl

/-- What a look-up answers depends on the arity of the relation and on its tuples only. -/
theorem WellFormed.lookup_of_arity? (hdb : db.WellFormed) {arity : Nat}
    (h : db.arity? name = some arity) (pattern : Pattern) :
    db.lookup name pattern =
      if pattern.length = arity then .ok ((db.tuples name).filter pattern.fits)
      else .error (.arityMismatch name arity pattern.length) := by
  split
  · next heq => exact hdb.lookup_eq_ok_iff.mpr ⟨heq ▸ h, rfl⟩
  · next hne => exact lookup_of_relation_eq_error (relation_of_arity?_ne h hne)

/-- A tuple is in a relation of its arity exactly if some tuple there fits it without holes. -/
theorem WellFormed.mem_tuples_iff_exists_fits (hdb : db.WellFormed) {t : Tuple}
    (h : db.arity? name = some t.length) :
    t ∈ db.tuples name ↔ ∃ u, u ∈ (db.tuples name).filter (Pattern.fits (t.map some)) := by
  constructor
  · intro ht
    refine ⟨t, List.mem_filter.mpr ⟨ht, ?_⟩⟩
    rw [Pattern.fits_map_some rfl]
    exact decide_eq_true rfl
  · rintro ⟨u, hu⟩
    obtain ⟨hu, hfits⟩ := List.mem_filter.mp hu
    have hlength : t.length = u.length := Option.some.inj (h.symm.trans (hdb.arity?_of_mem hu))
    rw [Pattern.fits_map_some hlength, decide_eq_true_iff] at hfits
    exact hfits ▸ hu

/-- To ask for a tuple is to look it up. -/
theorem WellFormed.contains_eq_lookup (hdb : db.WellFormed) (name : Predicate) (t : Tuple) :
    db.contains name t = (db.lookup name (t.map some)).map fun found => !found.isEmpty := by
  have hlength : (t.map some).length = t.length := List.length_map _
  cases harity : db.arity? name with
  | none =>
    rw [contains_of_relation_eq_error (relation_of_arity?_eq_none harity _),
      lookup_of_relation_eq_error (relation_of_arity?_eq_none harity _)]
    rfl
  | some arity =>
    rw [hdb.lookup_of_arity? harity, hlength]
    split
    · next heq =>
      rw [← heq] at harity
      refine contains_eq_ok_iff.mpr ⟨harity, ?_⟩
      rw [Bool.eq_iff_iff, decide_eq_true_iff, Bool.not_eq_true',
        List.isEmpty_eq_false_iff_exists_mem]
      exact (hdb.mem_tuples_iff_exists_fits harity).symm
    · next hne =>
      rw [contains_of_relation_eq_error (relation_of_arity?_ne harity hne)]
      rfl

theorem read_congr {α : Type} {f g : Database → Except StorageError α} (h : f db = g db) :
    read f db = read g db := by
  unfold read
  rw [h]

theorem read_bind_pure {α β : Type} (f : Database → Except StorageError α) (g : α → β) :
    (do let a ← read f; pure (g a)) db = read (fun db => (f db).map g) db := by
  cases h : f db with
  | ok a =>
    have hread : read f db = .ok a db := Storage.read_eq_ok.mpr ⟨h, rfl⟩
    rw [bind_of_eq_ok _ hread]
    exact (Storage.read_eq_ok.mpr ⟨by rw [h]; rfl, rfl⟩).symm
  | error e =>
    have hread : read f db = .error e db := by
      rw [read_congr (g := fun _ => .error e) h]
      rfl
    rw [bind_of_eq_error _ hread, read_congr (g := fun _ => .error e) (by rw [h]; rfl)]
    rfl

/-- A storage that has a faster way to ask for a tuple gives the answer of one that looks it up. -/
theorem WellFormed.containsCall_eq (hdb : db.WellFormed) (name : Predicate) (t : Tuple) :
    containsCall name t db = Storage.containsByLookup lookupCall name t db := by
  unfold Storage.containsByLookup lookupCall containsCall
  rw [read_bind_pure]
  exact read_congr (hdb.contains_eq_lookup name t)

/-- **A look-up filters the list of the tuples.**  After any calls that create relations and insert
tuples, successful or not: a look-up in a relation that is not there fails, one with a pattern of
another length fails, and any other one gives the tuples that have the bound value at every bound
position, each once and in the order of the list of all tuples.  So to ask for a tuple gives the
answer, or the failure, of looking it up, and the answer says whether the tuple is in the list. -/
theorem lookup_filters_scan (changes : List Change) (name : Predicate) :
    let db := ofChanges changes
    (db.arity? name = none →
      db.scan name = .error (.unknownRelation name) ∧
      ∀ pattern, db.lookup name pattern = .error (.unknownRelation name)) ∧
    (∀ arity, db.arity? name = some arity →
      ∃ tuples, db.scan name = .ok tuples ∧ ∀ pattern : Pattern,
        (pattern.length ≠ arity →
          db.lookup name pattern = .error (.arityMismatch name arity pattern.length)) ∧
        (pattern.length = arity → ∃ found, db.lookup name pattern = .ok found ∧
          found = tuples.filter (fun t => ∀ e ∈ pattern.zip t, e.1 = none ∨ e.1 = some e.2) ∧
          found.Nodup)) ∧
    (∀ t, Storage.contains name t db = Storage.containsByLookup Storage.lookup name t db) ∧
    ∀ t b, db.contains name t = .ok b ↔ db.arity? name = some t.length ∧
      ∃ tuples, db.scan name = .ok tuples ∧ b = decide (t ∈ tuples) := by
  intro db
  have hdb : db.WellFormed := (reachable_ofChanges changes).wellFormed
  refine ⟨fun hnone => ⟨scan_of_arity?_eq_none hnone, fun pattern => ?_⟩, fun arity harity => ?_,
    hdb.containsCall_eq name, fun t b => ?_⟩
  · exact lookup_of_relation_eq_error (relation_of_arity?_eq_none hnone _)
  · refine ⟨_, scan_of_arity?_eq_some harity, fun pattern => ⟨fun hne => ?_, fun heq => ?_⟩⟩
    · rw [hdb.lookup_of_arity? harity, if_neg hne]
    · refine ⟨_, (hdb.lookup_of_arity? harity pattern).trans (if_pos heq), ?_, ?_⟩
      · refine List.filter_congr fun t _ => ?_
        rw [Bool.eq_iff_iff, decide_eq_true_iff]
        exact Pattern.fits_iff_forall_zip
      · exact (hdb.nodup_tuples name).filter _
  · rw [contains_eq_ok_iff]
    refine and_congr_right fun harity => ?_
    rw [scan_of_arity?_eq_some harity]
    exact ⟨fun hb => ⟨_, rfl, hb⟩, fun ⟨tuples, hscan, hb⟩ => (Except.ok.inj hscan).symm ▸ hb⟩

/-- Visits to cities, among calls that fail and a visit that is told twice. -/
def visits : List Change :=
  [.insert "visited" ["ann", "oslo"], .create "visited" 2, .insert "visited" ["ann", "rome"],
    .insert "visited" ["bob", "oslo"], .create "visited" 3, .insert "visited" ["ann"],
    .insert "visited" ["ann", "rome"], .insert "visited" ["ann", "oslo"]]

theorem lookup_visits_of_ann :
    (ofChanges visits).lookup "visited" [some "ann", none] =
      .ok [["ann", "rome"], ["ann", "oslo"]] := by
  obtain ⟨-, hthere, -, -⟩ := lookup_filters_scan visits "visited"
  obtain ⟨tuples, hscan, hlookup⟩ := hthere 2 (by decide +kernel)
  obtain ⟨found, hfound, hfilter, -⟩ := (hlookup [some "ann", none]).2 rfl
  have hlist : (ofChanges visits).scan "visited" =
      .ok [["ann", "rome"], ["bob", "oslo"], ["ann", "oslo"]] := by decide +kernel
  rw [hlist] at hscan
  rw [hfound, hfilter, ← Except.ok.inj hscan]
  decide +kernel

end Database

end Datalog
