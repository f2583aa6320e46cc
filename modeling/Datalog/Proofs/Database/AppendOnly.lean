import Datalog.Proofs.Database.Calls

/-!
# A database is an append-only map of ordered sets

What a database shows is told by the calls that have succeeded: its names are those that were
created, in the order of their first creation and each with the arity of that creation, and its
relations hold the tuples that were inserted into them, in the order of their first insertion
(`Database.append_only_map_of_ordered_sets`).

* `Database.accepted`: the calls that succeed, of calls made one after the other.
* `Database.TellsOf`: a database shows what some successful calls have made of it.
* `Database.createCall_eq`, `Database.insertCall_eq`: the answer to the next call.

## Why nothing is ever taken back

A call that fails, creates a relation again or inserts a tuple again leaves the very same database
behind, not just one that looks the same.  Any other call adds one name behind all names, or one
tuple behind all tuples of a relation.  In the list of the successful calls each of these stands
behind the earlier ones, and what has been there before keeps its first place.
-/

namespace Datalog

namespace Database

/-! ## Calls that succeed -/

/-- The relation that a call creates, with its arity. -/
def Change.created? : Change → Option (Predicate × Nat)
  | .create name arity => some (name, arity)
  | .insert _ _ => none

/-- The tuple that a call inserts into a relation. -/
def Change.insertedInto? (name : Predicate) : Change → Option Tuple
  | .create _ _ => none
  | .insert other t => if other = name then some t else none

/-- Whether a call succeeds. -/
def accepts (db : Database) : Change → Bool
  | .create name arity => succeeds (Storage.create name arity db)
  | .insert name t => succeeds (Storage.insert name t db)

/-- Of calls that are made one after the other, those that succeed. -/
def accepted (db : Database) : List Change → List Change
  | [] => []
  | c :: cs =>
    if db.accepts c then c :: accepted (db.change c) cs else accepted (db.change c) cs

theorem accepted_append (db : Database) (cs ds : List Change) :
    accepted db (cs ++ ds) = accepted db cs ++ accepted (cs.foldl change db) ds := by
  induction cs generalizing db with
  | nil => rfl
  | cons c cs ih =>
    rw [List.cons_append, accepted, accepted, ih, List.foldl_cons]
    split <;> rfl

/-! ## The answer to a call -/

theorem create_of_arity?_eq_some {db : Database} {name : Predicate} {k : Nat}
    (h : db.arity? name = some k) (arity : Nat) :
    db.create name arity = if k = arity then .ok db else .error (.arityMismatch name k arity) := by
  obtain ⟨r, hr, rfl⟩ := arity?_eq_some_iff.mp h
  unfold create
  rw [hr]

theorem insert_of_relation_eq_error {db : Database} {name : Predicate} {t : Tuple}
    {e : StorageError} (h : db.relation name t.length = .error e) :
    db.insert name t = .error e := by
  unfold insert
  rw [h]
  rfl

/-- To create a relation succeeds unless there is one of another arity; one that is there stays as
it is. -/
theorem createCall_eq (db : Database) (name : Predicate) (arity : Nat) :
    Storage.create name arity db =
      match db.arity? name with
      | none => .ok () (db.change (.create name arity))
      | some k => if k = arity then .ok () db else .error (.arityMismatch name k arity) db := by
  cases hk : db.arity? name with
  | none =>
    obtain ⟨db', hcreate⟩ : ∃ db', db.create name arity = .ok db' :=
      create_eq_ok fun k hsome => absurd (hk.symm.trans hsome) (Option.some_ne_none k).symm
    rw [change, Storage.create_database_eq_ok.mpr hcreate]
    rfl
  | some k =>
    have hcreate := create_of_arity?_eq_some hk arity
    by_cases harity : k = arity
    · rw [if_pos harity] at hcreate
      simp only [if_pos harity]
      exact Storage.create_database_eq_ok.mpr hcreate
    · rw [if_neg harity] at hcreate
      simp only [if_neg harity]
      exact Storage.create_database_eq_error.mpr ⟨hcreate, rfl⟩

/-- To insert a tuple succeeds if it has the arity of the relation, and the answer says whether it
is new; if it is not, nothing changes. -/
theorem insertCall_eq (db : Database) (name : Predicate) (t : Tuple) :
    Storage.insert name t db =
      match db.arity? name with
      | none => .error (.unknownRelation name) db
      | some k =>
        if t.length = k then
          if t ∈ db.tuples name then .ok false db else .ok true (db.change (.insert name t))
        else .error (.arityMismatch name k t.length) db := by
  have hrefused : ∀ e, db.relation name t.length = .error e →
      Storage.insert name t db = .error e db :=
    fun e he => Storage.insert_database_eq_error.mpr ⟨insert_of_relation_eq_error he, rfl⟩
  cases hk : db.arity? name with
  | none => exact hrefused _ (relation_of_arity?_eq_none hk _)
  | some k =>
    by_cases hlength : t.length = k
    · simp only [if_pos hlength]
      obtain ⟨isNew, db', hinsert⟩ := insert_eq_ok (hlength ▸ hk)
      have hrun := Storage.insert_database_eq_ok.mpr hinsert
      have hnew := (inserted_of_insert hinsert).isNew_eq
      by_cases hthere : t ∈ db.tuples name
      · obtain rfl := eq_of_insert_of_mem hinsert hthere
        rw [if_pos hthere, hrun, hnew, decide_eq_false (not_not_intro hthere)]
      · rw [if_neg hthere, change, hrun, hnew, decide_eq_true hthere]
        rfl
    · simp only [if_neg hlength]
      exact hrefused _ (relation_of_arity?_ne hk hlength)

/-- A call succeeds and does what it is for, or it fails and changes nothing. -/
theorem accepts_cases (db : Database) (c : Change) :
    (db.accepts c = true ∧ match c with
      | .create name arity => Created db name arity (db.change c)
      | .insert name t => ∃ isNew, Inserted db name t isNew (db.change c)) ∨
    (db.accepts c = false ∧ db.change c = db) := by
  cases c with
  | create name arity =>
    cases hrun : Storage.create name arity db with
    | ok _ db' =>
      have hcreated := created_of_create (Storage.create_database_eq_ok.mp hrun)
      simp only [accepts, change, hrun]
      exact Or.inl ⟨rfl, hcreated⟩
    | error e db' =>
      have hsame := createCall_eq db name arity
      rw [hrun] at hsame
      simp only [accepts, change, hrun]
      refine Or.inr ⟨rfl, ?_⟩
      split at hsame
      · cases hsame
      · split at hsame
        · cases hsame
        · exact (EStateM.Result.error.inj hsame).2
  | insert name t =>
    rcases Storage.contents_insert name t db with ⟨hok, isNew, hinsert⟩ | ⟨hfail, hsame⟩
    · exact Or.inl ⟨hok, isNew, inserted_of_insert hinsert⟩
    · exact Or.inr ⟨hfail, hsame⟩

/-! ## What a database shows -/

/-- A database shows what the given calls, all of them successful, have made of it. -/
structure TellsOf (db : Database) (calls : List Change) : Prop where
  /-- The names, in the order of their first creation. -/
  names : db.names = ((calls.filterMap Change.created?).map Prod.fst).eraseDups
  /-- The arity of the first creation. -/
  arity? : ∀ name, db.arity? name = (calls.filterMap Change.created?).lookup name
  /-- The tuples, in the order of their first insertion. -/
  tuples : ∀ name, db.tuples name = (calls.filterMap (Change.insertedInto? name)).eraseDups

theorem tellsOf_empty : (∅ : Database).TellsOf [] := ⟨rfl, fun _ => rfl, fun _ => rfl⟩

/-- A further call. -/
theorem TellsOf.change {db : Database} {calls : List Change} (h : db.TellsOf calls) (c : Change) :
    (db.change c).TellsOf (calls ++ if db.accepts c then [c] else []) := by
  rcases db.accepts_cases c with ⟨hok, hdone⟩ | ⟨hfail, hsame⟩
  · rw [if_pos hok]
    cases c with
    | create name arity =>
      have hcreated : Created db name arity (db.change (.create name arity)) := hdone
      refine ⟨?_, fun other => ?_, fun other => ?_⟩
      · rw [hcreated.names, h.names, List.filterMap_append, List.map_append]
        exact (eraseDups_concat _ name).symm
      · rw [List.filterMap_append, List.lookup_append, ← h.arity?]
        cases hk : db.arity? other with
        | some k => rw [hcreated.arity?_of_eq_some hk, Option.some_or]
        | none =>
          by_cases hother : other = name
          · rw [hother, hcreated.arity?_self]
            simp [Change.created?]
          · rw [arity?_congr (hcreated.find?_of_ne other hother), hk]
            simp [Change.created?, List.lookup_cons, beq_false_of_ne hother]
      · have hnone : [Change.create name arity].filterMap (Change.insertedInto? other) = [] := rfl
        rw [hcreated.tuples, h.tuples, List.filterMap_append, hnone, List.append_nil]
    | insert name t =>
      obtain ⟨isNew, hinserted⟩ : ∃ isNew,
          Inserted db name t isNew (db.change (.insert name t)) := hdone
      have hcreations : (calls ++ [Change.insert name t]).filterMap Change.created? =
          calls.filterMap Change.created? := by
        simp [Change.created?]
      refine ⟨?_, fun other => ?_, fun other => ?_⟩
      · rw [hinserted.names, h.names, hcreations]
      · rw [hinserted.arity?, h.arity?, hcreations]
      · rw [List.filterMap_append]
        by_cases hother : other = name
        · subst hother
          rw [hinserted.tuples_self, h.tuples]
          simp only [List.filterMap_cons, List.filterMap_nil, Change.insertedInto?, if_true]
          exact (eraseDups_concat _ t).symm
        · rw [tuples_congr (hinserted.find?_of_ne other hother), h.tuples]
          simp [Change.insertedInto?, Ne.symm hother]
  · rw [hfail, hsame]
    simpa using h

theorem TellsOf.foldl_change {db : Database} {calls : List Change} (h : db.TellsOf calls)
    (changes : List Change) :
    (changes.foldl Database.change db).TellsOf (calls ++ accepted db changes) := by
  induction changes generalizing db calls with
  | nil =>
    rw [accepted, List.append_nil]
    exact h
  | cons c changes ih =>
    have hrest := ih (h.change c)
    rw [List.append_assoc] at hrest
    rw [accepted, List.foldl_cons]
    split at hrest
    · next hok =>
      rw [if_pos hok]
      exact hrest
    · next hfail =>
      rw [if_neg hfail]
      exact hrest

/-- **A database tells of the calls that have succeeded.** -/
theorem tellsOf_ofChanges (changes : List Change) :
    (ofChanges changes).TellsOf (accepted ∅ changes) := tellsOf_empty.foldl_change changes

/-- What a database shows stays in its place when further calls have succeeded. -/
theorem TellsOf.stays {db db' : Database} {calls more : List Change} (h : db.TellsOf calls)
    (h' : db'.TellsOf (calls ++ more)) :
    db.names <+: db'.names ∧
      (∀ name k, db.arity? name = some k → db'.arity? name = some k) ∧
      ∀ name, db.tuples name <+: db'.tuples name := by
  refine ⟨?_, fun name k hk => ?_, fun name => ?_⟩
  · rw [h.names, h'.names, List.filterMap_append, List.map_append]
    exact prefix_eraseDups_append _ _
  · rw [h'.arity?, List.filterMap_append, List.lookup_append, ← h.arity?, hk, Option.some_or]
  · rw [h.tuples, h'.tuples, List.filterMap_append]
    exact prefix_eraseDups_append _ _

/-! ## Counts -/

theorem count_eq_length_tuples (db : Database) (name : Predicate) :
    db.count name = (db.tuples name).length := by
  unfold count tuples
  cases db.relations.find? name <;> rfl

/-- The total is taken over the names. -/
theorem WellFormed.totalTuples_eq (h : WellFormed db) :
    db.totalTuples = total (db.names.map db.count) := by
  unfold totalTuples names Table.values Table.keys
  rw [List.map_map, List.map_map]
  refine congrArg total (List.map_congr_left fun e he => ?_)
  have hfind := Table.find?_of_mem_entries h.nodup_names (k := e.1) (v := e.2) he
  show e.2.tuples.length = db.count e.1
  rw [count_eq_length_tuples, tuples_of_find? hfind]

/-- **A database is an append-only map of ordered sets.**  After any calls that create relations and
insert tuples, successful or not, its names are those that were created, each once, in the order of
their first creation and with the arity of that creation; each of its relations lists the distinct
tuples that were inserted into it, all of its arity, in the order of their first insertion; and the
counts are those of these lists.

To create a relation that is there succeeds if the arity is the same.  To insert a tuple succeeds if
the relation is there and the tuple has its arity, and the answer is whether it is new.  A call that
fails, creates a relation again or inserts a tuple again leaves the same database behind.  Whatever
calls follow, names and tuples stay in their places, and arities stay what they are. -/
theorem append_only_map_of_ordered_sets (changes : List Change) :
    let db := ofChanges changes
    let calls := accepted ∅ changes
    (db.names = ((calls.filterMap Change.created?).map Prod.fst).eraseDups ∧
      ∀ name, db.arity? name = (calls.filterMap Change.created?).lookup name) ∧
    (∀ name, db.scan name =
      if name ∈ db.names then .ok (calls.filterMap (Change.insertedInto? name)).eraseDups
      else .error (.unknownRelation name)) ∧
    (∀ name tuples, db.scan name = .ok tuples → db.count name = tuples.length ∧
      ∀ t ∈ tuples, db.arity? name = some t.length) ∧
    db.totalTuples = total (db.names.map db.count) ∧
    (∀ name arity, Storage.create name arity db =
      match db.arity? name with
      | none => .ok () (db.change (.create name arity))
      | some k => if k = arity then .ok () db else .error (.arityMismatch name k arity) db) ∧
    (∀ name t, Storage.insert name t db =
      match db.arity? name with
      | none => .error (.unknownRelation name) db
      | some k =>
        if t.length = k then
          if t ∈ db.tuples name then .ok false db else .ok true (db.change (.insert name t))
        else .error (.arityMismatch name k t.length) db) ∧
    ∀ more, let later := ofChanges (changes ++ more)
      db.names <+: later.names ∧
        (∀ name k, db.arity? name = some k → later.arity? name = some k) ∧
        ∀ name, db.tuples name <+: later.tuples name := by
  intro db calls
  have hdb : db.WellFormed := (reachable_ofChanges changes).wellFormed
  have htells : db.TellsOf calls := tellsOf_ofChanges changes
  have hscan : ∀ name, db.scan name =
      if name ∈ db.names then .ok (db.tuples name) else .error (.unknownRelation name) := by
    intro name
    cases hk : db.arity? name with
    | none =>
      rw [if_neg fun hmem => mem_names_iff.mp hmem hk]
      exact scan_of_arity?_eq_none hk
    | some k =>
      rw [if_pos (mem_names_iff.mpr (hk ▸ Option.some_ne_none k))]
      exact scan_of_arity?_eq_some hk
  refine ⟨⟨htells.names, htells.arity?⟩, fun name => ?_, fun name tuples hok => ?_,
    hdb.totalTuples_eq, createCall_eq db, insertCall_eq db, fun more => ?_⟩
  · rw [hscan, htells.tuples]
  · rw [hscan] at hok
    split at hok
    · obtain rfl := Except.ok.inj hok
      exact ⟨count_eq_length_tuples db name, fun t ht => hdb.arity?_of_mem ht⟩
    · cases hok
  · have hlater := tellsOf_ofChanges (changes ++ more)
    rw [accepted_append] at hlater
    exact htells.stays hlater

/-- The first visit is told before there is a relation for it, and a relation of visits is created
twice with different arities. -/
example : accepted ∅ visits =
    [.create "visited" 2, .insert "visited" ["ann", "rome"], .insert "visited" ["bob", "oslo"],
      .insert "visited" ["ann", "rome"], .insert "visited" ["ann", "oslo"]] := by decide +kernel

end Database

end Datalog
