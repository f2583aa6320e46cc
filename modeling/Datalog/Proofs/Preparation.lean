import Datalog.Proofs.LeastModel

/-!
# Preparing a database for a program

All relations of a program are checked before the first fact is inserted.  If the database has a
relation of another arity than the program, preparing it fails at the first such predicate in the
order of the strata; by then relations have been created at most, and no tuple has been inserted.
Otherwise it succeeds, and what it leaves is known down to the order of the tuples
(`materialize_checks_before_inserting`).

* `Program.ClashesWith`: a relation has another arity than the program asks for.
* `Program.materialize_of_clash`, `Program.Valid.materialize_of_no_clash`: the two ways in which
  preparing a database ends.

## Why every list is a list of arrivals

A name is added to the names of a database, and a tuple to its relation, if it is not there; so both
lists are what they were, followed by the newcomers in the order of their first arrival (`Opened`,
`Entered`, `foldl_arrive`).  The names arrive in the order of the strata, which list every predicate
once, and the tuples in the order of the facts.
-/

namespace Datalog

/-! ## Creating the relations -/

theorem createAll_append {σ : Type} [Storage σ] (p : Program) (front back : List Predicate) :
    createAll (σ := σ) p (front ++ back) = createAll p front >>= fun _ => createAll p back := by
  induction front with
  | nil => rfl
  | cons name front ih =>
    rw [List.cons_append, createAll, createAll, bind_assoc, ih]

/-- **Creating relations stops at the first that has another arity**, and has created those before
it. -/
theorem createAll_of_first_clash {p : Program} {front back : List Predicate} {name : Predicate}
    {db : Database} {expected : Nat}
    (hfront : ∀ other ∈ front, ∀ k, db.arity? other = some k → k = (p.arity? other).getD 0)
    (hk : db.arity? name = some expected) (hne : expected ≠ (p.arity? name).getD 0) :
    ∃ db', createAll p (front ++ name :: back) db =
        .error (.arityMismatch name expected ((p.arity? name).getD 0)) db' ∧
      Opened p front db db' := by
  obtain ⟨db', hrun⟩ := exists_createAll hfront
  have hopened := opened_of_createAll hrun
  have hcall : Storage.create name ((p.arity? name).getD 0) db' =
      .error (.arityMismatch name expected ((p.arity? name).getD 0)) db' := by
    rw [Database.createCall_eq, hopened.arity?_of_eq_some hk]
    exact if_neg hne
  refine ⟨db', ?_, hopened⟩
  rw [createAll_append, bind_of_eq_ok _ hrun, createAll, bind_of_eq_error _ hcall]

/-! ## Clashes -/

/-- A relation of the database has another arity than the program's predicate of that name. -/
def Program.ClashesWith (p : Program) (db : Database) (name : Predicate) : Prop :=
  ∃ expected found, db.arity? name = some expected ∧ p.arity? name = some found ∧ expected ≠ found

namespace Program

variable {p : Program} {db : Database}

theorem mem_predicates_iff_arity? {name : Predicate} :
    name ∈ p.predicates ↔ ∃ arity, p.arity? name = some arity := by
  rw [predicates, Table.mem_keys_iff]
  simp only [arity?, Option.map_eq_some_iff]
  constructor
  · rintro ⟨v, hv⟩
    exact ⟨v.arity, v, hv, rfl⟩
  · rintro ⟨arity, v, hv, -⟩
    exact ⟨v, hv⟩

/-- The clash that comes first in the order of the strata. -/
theorem exists_first_clash (h : ∃ name, p.ClashesWith db name) : ∃ front name back,
    (Stratification.ofProgram p).strata.flatMap Stratum.predicates = front ++ name :: back ∧
      (∀ other ∈ front, ¬ p.ClashesWith db other) ∧ p.ClashesWith db name := by
  classical
  obtain ⟨name, expected, found, hk, harity, hne⟩ := h
  have hmem := (Stratification.perm_predicates p).mem_iff.mpr
    (mem_predicates_iff_arity?.mpr ⟨found, harity⟩)
  have hsome : (List.find? (fun other => decide (p.ClashesWith db other))
      ((Stratification.ofProgram p).strata.flatMap Stratum.predicates)).isSome := by
    exact List.find?_isSome.mpr ⟨name, hmem, decide_eq_true ⟨expected, found, hk, harity, hne⟩⟩
  obtain ⟨first, hfirst⟩ := Option.isSome_iff_exists.mp hsome
  obtain ⟨hclash, front, back, hsplit, hfront⟩ := List.find?_eq_some_iff_append.mp hfirst
  refine ⟨front, first, back, hsplit, fun other hother => ?_, of_decide_eq_true hclash⟩
  simpa using hfront other hother

/-- Without a clash, a predicate can be created. -/
theorem eq_of_not_clashesWith {name : Predicate} (h : ¬ p.ClashesWith db name)
    (hname : name ∈ p.predicates) {k : Nat} (hk : db.arity? name = some k) :
    k = (p.arity? name).getD 0 := by
  obtain ⟨arity, harity⟩ := mem_predicates_iff_arity?.mp hname
  by_contra hne
  rw [harity] at hne
  exact h ⟨k, arity, hk, harity, hne⟩

/-- The facts of a program can be inserted where its relations are. -/
theorem Valid.arity?_of_fact (hp : p.Valid) {a : Atom} (ha : a ∈ p.facts) {t : Tuple}
    (ht : a.toTuple? = some t) : a.predicate ∈ p.predicates ∧
      (p.arity? a.predicate).getD 0 = t.length := by
  have harity := hp.arity?_of_mem (mem_facts.mp ha) (List.mem_singleton.mpr rfl)
  have hlength := Atom.length_ground (fun _ => "") a
  rw [Atom.ground_of_toTuple? ht] at hlength
  refine ⟨mem_predicates_iff_arity?.mpr ⟨_, harity⟩, ?_⟩
  rw [harity, hlength]
  rfl

/-- **Where nothing clashes, preparing a database succeeds.** -/
theorem Valid.materialize_of_no_clash (hp : p.Valid) (h : ∀ name, ¬ p.ClashesWith db name) :
    ∃ n mid db', materialize p (Stratification.ofProgram p) db = .ok n db' ∧
      Opened p ((Stratification.ofProgram p).strata.flatMap Stratum.predicates) db mid ∧
      Entered p.facts n mid db' := by
  have hmem := fun name => (Stratification.perm_predicates p).mem_iff (a := name)
  obtain ⟨mid, hcreate⟩ := exists_createAll fun name hname k hk =>
    eq_of_not_clashesWith (h name) ((hmem name).mp hname) hk
  have hopened := opened_of_createAll hcreate
  obtain ⟨n, db', hinsert⟩ : ∃ n db', insertFacts p.facts mid = .ok n db' := by
    refine exists_insertFacts fun a ha t ht => ?_
    obtain ⟨hname, hlength⟩ := hp.arity?_of_fact ha ht
    rw [hopened.arity? _ ((hmem _).mpr hname), hlength]
  exact ⟨n, mid, db', bind_eq_ok.mpr ⟨(), mid, hcreate, hinsert⟩, hopened,
    entered_of_insertFacts hinsert⟩

/-- **Where something clashes, preparing a database fails** at the first clash, with the relations
before it created and no fact inserted. -/
theorem materialize_of_clash (h : ∃ name, p.ClashesWith db name) :
    ∃ front name back expected found db',
      (Stratification.ofProgram p).strata.flatMap Stratum.predicates = front ++ name :: back ∧
      (∀ other ∈ front, ¬ p.ClashesWith db other) ∧
      (db.arity? name = some expected ∧ p.arity? name = some found ∧ expected ≠ found) ∧
      materialize p (Stratification.ofProgram p) db =
        .error (.arityMismatch name expected found) db' ∧ Opened p front db db' := by
  obtain ⟨front, name, back, hsplit, hfront, expected, found, hk, harity, hne⟩ :=
    exists_first_clash h
  have hpredicate : ∀ other ∈ front, other ∈ p.predicates := by
    intro other hother
    rw [← (Stratification.perm_predicates p).mem_iff, hsplit]
    exact List.mem_append_left _ hother
  have hfound : (p.arity? name).getD 0 = found := by
    rw [harity]
    rfl
  have hagree : ∀ other ∈ front, ∀ k, db.arity? other = some k →
      k = (p.arity? other).getD 0 := fun other hother k hk =>
    eq_of_not_clashesWith (hfront other hother) (hpredicate other hother) hk
  obtain ⟨db', hrun, hopened⟩ : ∃ db', createAll p (front ++ name :: back) db =
      .error (.arityMismatch name expected ((p.arity? name).getD 0)) db' ∧
        Opened p front db db' :=
    createAll_of_first_clash hagree hk (hfound.symm ▸ hne)
  rw [← hsplit, hfound] at hrun
  refine ⟨front, name, back, expected, found, db', hsplit, hfront, ⟨hk, harity, hne⟩, ?_, hopened⟩
  rw [materialize, bind_of_eq_error _ hrun]

end Program

/-- **A database can be prepared** for a program unless it has a relation of another arity. -/
theorem exists_materialize_iff {p : Program} (hp : p.Valid) {db : Database} :
    (∃ n db', materialize p (Stratification.ofProgram p) db = .ok n db') ↔
      ∀ name k arity, db.arity? name = some k → p.arity? name = some arity → k = arity := by
  constructor
  · rintro ⟨n, db', hmat⟩ name k arity hk harity
    obtain ⟨_, mid, hcreate, -⟩ := bind_eq_ok.mp hmat
    have hname := (Stratification.perm_predicates p).mem_iff.mpr
      (Program.mem_predicates_iff_arity?.mpr ⟨arity, harity⟩)
    have hopened := opened_of_createAll hcreate
    have hcreated := hopened.arity? name hname
    rw [hopened.arity?_of_eq_some hk, harity] at hcreated
    exact Option.some.inj hcreated
  · intro h
    have hfree : ∀ name, ¬ p.ClashesWith db name :=
      fun name ⟨k, arity, hk, harity, hne⟩ => hne (h name k arity hk harity)
    obtain ⟨n, -, db', hmat, -, -⟩ := hp.materialize_of_no_clash hfree
    exact ⟨n, db', hmat⟩

/-- **Preparing a database checks every relation before it inserts any fact.**  If some relation has
another arity than the program's predicate of its name, then preparing fails at the first such
predicate in the order of the strata.  The error tells the arity of the relation and that of the
program, the relations that were there are what they were, and the only others are empty ones, for
predicates before the first clash.

Otherwise preparing succeeds.  New relations stand behind the old ones in the order of the strata,
and every predicate of the program has a relation of its arity.  Every relation lists the tuples
that it had, followed by exactly those that the facts of the program state for it and that were not
there, each once, in the order of their first occurrence.  The result is the number of tuples
added. -/
theorem materialize_checks_before_inserting {p : Program} (hp : p.Reachable) {db : Database}
    (hdb : db.Reachable) :
    let order := (Stratification.ofProgram p).strata.flatMap Stratum.predicates
    ((∃ name, p.ClashesWith db name) → ∃ front name back expected found db',
      order = front ++ name :: back ∧ (∀ other ∈ front, ¬ p.ClashesWith db other) ∧
      db.arity? name = some expected ∧ p.arity? name = some found ∧ expected ≠ found ∧
      materialize p (Stratification.ofProgram p) db =
        .error (.arityMismatch name expected found) db' ∧
      db'.names = db.names ++ front.removeAll db.names ∧
      (∀ other ∈ db.names, db'.relations.find? other = db.relations.find? other) ∧
      ∀ other ∈ front, other ∉ db.names → db'.scan other = .ok []) ∧
    ((∀ name, ¬ p.ClashesWith db name) → ∃ n db',
      materialize p (Stratification.ofProgram p) db = .ok n db' ∧
      db'.names = db.names ++ order.removeAll db.names ∧
      (∀ name ∈ p.predicates, db'.arity? name = p.arity? name) ∧
      (∀ name ∈ db.names, db'.arity? name = db.arity? name) ∧
      (∀ name, db'.tuples name =
        db.tuples name ++ ((tuplesFor name p.facts).removeAll (db.tuples name)).eraseDups) ∧
      db'.totalTuples = db.totalTuples + n) := by
  intro order
  have hnodup : order.Nodup := Stratification.nodup_predicates hp.valid
  refine ⟨fun hclash => ?_, fun hfree => ?_⟩
  · obtain ⟨front, name, back, expected, found, db', hsplit, hfront, ⟨hk, harity, hne⟩, hmat,
      hopened⟩ := Program.materialize_of_clash hclash
    have hfirst : front.Nodup := by
      rw [show order = front ++ name :: back from hsplit] at hnodup
      exact (List.nodup_append.mp hnodup).1
    refine ⟨front, name, back, expected, found, db', hsplit, hfront, hk, harity, hne, hmat,
      hopened.names_eq hfirst, hopened.find?_of_mem, fun other hother hnew => ?_⟩
    have hnone : db.tuples other = [] :=
      Database.tuples_of_find?_eq_none (Table.find?_eq_none_iff.mpr hnew)
    rw [Database.scan_of_arity?_eq_some (hopened.arity? other hother), hopened.tuples, hnone]
  · obtain ⟨n, mid, db', hmat, hopened, hentered⟩ := hp.valid.materialize_of_no_clash hfree
    have hmid := hopened.wellFormed hdb.wellFormed
    refine ⟨n, db', hmat, ?_, fun name hname => ?_, fun name hname => ?_, fun name => ?_, ?_⟩
    · rw [hentered.names, hopened.names_eq hnodup]
    · obtain ⟨arity, harity⟩ := Program.mem_predicates_iff_arity?.mp hname
      have hwanted : name ∈ order := (Stratification.perm_predicates p).mem_iff.mpr hname
      rw [hentered.arity?, hopened.arity? name hwanted, harity]
      rfl
    · rw [hentered.arity?, Database.arity?_congr (hopened.find?_of_mem name hname)]
    · rw [hentered.tuples, hopened.tuples, foldl_arrive]
    · rw [hentered.totalTuples hmid, hmid.totalTuples_congr hdb.wellFormed hopened.holds]

/-- A database whose paths have three columns. -/
def measured : Database := finalState (Storage.create (σ := Database) "path" 3 ∅)

/-- Preparing this database for `paths` creates the relation of the edges, and fails at that of the
paths; the edge that `paths` states has not been inserted.  Preparing `seeded` succeeds, and inserts
the edge behind the one that was there. -/
theorem paths_checked_before_edges :
    (∃ db', materialize paths (Stratification.ofProgram paths) measured =
        .error (.arityMismatch "path" 3 2) db' ∧ db'.scan "edge" = .ok []) ∧
      ∃ n db', materialize paths (Stratification.ofProgram paths) seeded = .ok n db' ∧
        db'.totalTuples = seeded.totalTuples + n ∧
        db'.tuples "edge" = [["b", "c"], ["a", "b"]] := by
  have hmeasured : measured.Reachable :=
    Storage.reachable_create (σ := Database) "path" 3 Database.Reachable.empty
  obtain ⟨hclash, -⟩ :=
    materialize_checks_before_inserting (p := paths) (.extend _ .empty) hmeasured
  obtain ⟨-, hfree⟩ :=
    materialize_checks_before_inserting (p := paths) (.extend _ .empty) reachable_seeded
  constructor
  · have hthree : measured.arity? "path" = some 3 := by decide +kernel
    have htwo : paths.arity? "path" = some 2 := by decide +kernel
    have horder : (Stratification.ofProgram paths).strata.flatMap Stratum.predicates =
        ["edge", "path"] := by
      rw [Stratification.ofProgram_eq_counted]
      decide +kernel
    obtain ⟨front, name, back, expected, found, db', hsplit, -, hexpected, hfound, -, hmat, -, -,
      hempty⟩ := hclash ⟨"path", 3, 2, hthree, htwo, by decide⟩
    have hname : name ∈ measured.names := by
      rw [Database.mem_names_iff, hexpected]
      exact Option.some_ne_none expected
    obtain rfl : name = "path" := List.mem_singleton.mp hname
    obtain rfl : expected = 3 := Option.some.inj (hexpected.symm.trans hthree)
    obtain rfl : found = 2 := Option.some.inj (hfound.symm.trans htwo)
    rw [horder] at hsplit
    refine ⟨db', hmat, hempty "edge" ?_ (by decide)⟩
    cases front with
    | nil => simp at hsplit
    | cons other front => rw [(List.cons.inj hsplit).1]; exact List.mem_cons_self
  · obtain ⟨k, hmat⟩ := exists_materialize_paths
    have hagree := (exists_materialize_iff (Program.Reachable.extend _ .empty).valid).mp
      ⟨k, _, hmat⟩
    have hno : ∀ name, ¬ paths.ClashesWith seeded name := by
      rintro name ⟨expected, found, hk, harity, hne⟩
      exact hne (hagree name expected found hk harity)
    obtain ⟨n, db', hrun, -, -, -, htuples, htotal⟩ := hfree hno
    have hedges : seeded.tuples "edge" ++
        ((tuplesFor "edge" paths.facts).removeAll (seeded.tuples "edge")).eraseDups =
          [["b", "c"], ["a", "b"]] := by decide +kernel
    exact ⟨n, db', hrun, htotal, (htuples "edge").trans hedges⟩

end Datalog
