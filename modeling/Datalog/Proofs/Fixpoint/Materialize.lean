import Datalog.Proofs.Database.Counting
import Datalog.Proofs.Fixpoint.Refusals
import Datalog.Proofs.Program

/-!
# Before the first round

Creating the relations of a program adds no tuple, and inserting its facts adds no other.  If both
succeed, the database has every relation that the program mentions, with the arity of its atoms, and
states every fact.  Relations can be created unless there are some of another arity
(`exists_createAll`), and facts can be inserted where their relations are (`exists_insertFacts`).

* `Widened`, `Prepared`: what is left even if creating relations or the whole is interrupted.
* `Opened`, `Entered`: all that creating relations and inserting facts does if it succeeds, down to
  the order of the names and of the tuples.
* `Materialized`: what both together do if they succeed.
-/

namespace Datalog

open Storage

variable {σ : Type} [Storage σ]

/-- Some relations have been created, and no tuple has come or gone. -/
structure Widened (db db' : Database) : Prop where
  wellFormed : db.WellFormed → db'.WellFormed
  holds : db'.holds = db.holds

namespace Widened

variable {db db₁ db₂ : Database}

theorem refl (db : Database) : Widened db db := ⟨fun h => h, rfl⟩

theorem trans (h : Widened db db₁) (h' : Widened db₁ db₂) : Widened db db₂ :=
  ⟨fun hdb => h'.wellFormed (h.wellFormed hdb), h'.holds.trans h.holds⟩

theorem of_create {name : Predicate} {arity : Nat} (h : db.create name arity = .ok db₁) :
    Widened db db₁ := ⟨fun hdb => hdb.create h, (Database.created_of_create h).holds⟩

end Widened

/-- **However creating relations ends**, it has created some of them. -/
theorem widened_createAll (p : Program) (wanted : List Predicate) (st : σ) :
    Widened (contents st) (contents (finalState (createAll p wanted st))) := by
  induction wanted generalizing st with
  | nil => exact .refl _
  | cons name wanted ih =>
    have hcall : Widened (contents st)
        (contents (finalState (create name ((p.arity? name).getD 0) st))) := by
      rcases contents_create name ((p.arity? name).getD 0) st with hsame | hcreate
      · rw [hsame]
        exact .refl _
      · exact .of_create hcreate
    rw [createAll]
    exact finalState_bind (P := fun st' => Widened (contents st) (contents st')) hcall
      fun _ st' _ h => h.trans (ih st')

/-- All that creating relations does, if it succeeds. -/
structure Opened (p : Program) (wanted : List Predicate) (db db' : Database) : Prop where
  wellFormed : db.WellFormed → db'.WellFormed
  /-- The names arrive behind those that are there. -/
  names : db'.names = wanted.foldl arrive db.names
  /-- Relations that were there stay as they are. -/
  find?_of_mem : ∀ name ∈ db.names, db'.relations.find? name = db.relations.find? name
  /-- The relations have the arities of the program. -/
  arity? : ∀ name ∈ wanted, db'.arity? name = some ((p.arity? name).getD 0)
  /-- No tuple comes or goes. -/
  tuples : ∀ name, db'.tuples name = db.tuples name

theorem opened_of_createAll {p : Program} {wanted : List Predicate} {db db' : Database}
    (h : createAll p wanted db = .ok () db') : Opened p wanted db db' := by
  induction wanted generalizing db with
  | nil =>
    obtain ⟨-, rfl⟩ := pure_eq_ok.mp h
    exact ⟨fun hdb => hdb, rfl, fun _ _ => rfl, fun _ hname => absurd hname List.not_mem_nil,
      fun _ => rfl⟩
  | cons name wanted ih =>
    obtain ⟨_, mid, hfirst, hrest⟩ := bind_eq_ok.mp h
    have hcall := create_database_eq_ok.mp hfirst
    have hcreated := Database.created_of_create hcall
    have hopened := ih hrest
    have hmid : ∀ other, other ∈ mid.names ↔ other ∈ db.names ∨ other = name := by
      intro other
      rw [hcreated.names, mem_arrive]
    refine ⟨fun hdb => hopened.wellFormed (hdb.create hcall), ?_, fun other hother => ?_,
      fun other hother => ?_, fun other => ?_⟩
    · rw [hopened.names, hcreated.names, List.foldl_cons]
    · rw [hopened.find?_of_mem other ((hmid other).mpr (Or.inl hother))]
      by_cases hname : other = name
      · rw [hcreated.eq_of_mem (hname ▸ hother)]
      · exact hcreated.find?_of_ne other hname
    · rcases List.mem_cons.mp hother with rfl | hother
      · rw [Database.arity?_congr (hopened.find?_of_mem other ((hmid other).mpr (Or.inr rfl)))]
        exact hcreated.arity?_self
      · exact hopened.arity? other hother
    · rw [hopened.tuples, hcreated.tuples]

/-- A relation that was there has kept its arity. -/
theorem Opened.arity?_of_eq_some {p : Program} {wanted : List Predicate} {db db' : Database}
    (h : Opened p wanted db db') {name : Predicate} {k : Nat} (hk : db.arity? name = some k) :
    db'.arity? name = some k := by
  have hmem : name ∈ db.names := by
    rw [Database.mem_names_iff, hk]
    exact Option.some_ne_none k
  rw [Database.arity?_congr (h.find?_of_mem name hmem), hk]

theorem Opened.holds {p : Program} {wanted : List Predicate} {db db' : Database}
    (h : Opened p wanted db db') : db'.holds = db.holds := by
  ext ⟨name, t⟩
  rw [Database.mem_holds, Database.mem_holds, h.tuples]

/-- Other relations stay as they are. -/
theorem Opened.find?_of_not_mem {p : Program} {wanted : List Predicate} {db db' : Database}
    (h : Opened p wanted db db') {name : Predicate} (hname : name ∉ wanted) :
    db'.relations.find? name = db.relations.find? name := by
  by_cases hmem : name ∈ db.names
  · exact h.find?_of_mem name hmem
  · have hmem' : name ∉ db'.names := by
      rw [h.names, mem_foldl_arrive]
      exact not_or.mpr ⟨hmem, hname⟩
    rw [Table.find?_eq_none_iff.mpr hmem, Table.find?_eq_none_iff.mpr hmem']

/-- Names that are wanted once stand behind the others in the order in which they are wanted. -/
theorem Opened.names_eq {p : Program} {wanted : List Predicate} {db db' : Database}
    (h : Opened p wanted db db') (hwanted : wanted.Nodup) :
    db'.names = db.names ++ wanted.removeAll db.names := by
  have hnew : (wanted.removeAll db.names).Nodup := hwanted.filter _
  rw [h.names, foldl_arrive, eraseDups_of_nodup hnew]

/-- Relations can be created unless there are some of other arities. -/
theorem exists_createAll {p : Program} {names : List Predicate} {db : Database}
    (h : ∀ name ∈ names, ∀ k, db.arity? name = some k → k = (p.arity? name).getD 0) :
    ∃ db', createAll p names db = .ok () db' := by
  induction names generalizing db with
  | nil => exact ⟨db, rfl⟩
  | cons name names ih =>
    obtain ⟨mid, hmid⟩ := Database.create_eq_ok (h name List.mem_cons_self)
    have hcreated := Database.created_of_create hmid
    rw [createAll, bind_of_eq_ok _ (create_database_eq_ok.mpr hmid)]
    refine ih fun other hother k hk => ?_
    by_cases hname : other = name
    · rw [hname, hcreated.arity?_self] at hk
      rw [hname]
      exact (Option.some.inj hk).symm
    · rw [Database.arity?_congr (hcreated.find?_of_ne other hname)] at hk
      exact h other (List.mem_cons_of_mem name hother) k hk

/-- The ground atoms that a program states as facts. -/
def Program.factAtoms (p : Program) : Interpretation :=
  {g | ∃ a ∈ p.facts, a.predicate = g.1 ∧ a.toTuple? = some g.2}

theorem refines_insertFacts_facts (p : Program) :
    Refines p.factAtoms (insertFacts (σ := σ) p.facts) (insertFacts (σ := Database) p.facts) :=
  refines_insertFacts p.facts fun a ha _ ht => ⟨a, ha, rfl, ht⟩

/-- The tuples that facts state for a predicate, in order. -/
def tuplesFor (name : Predicate) (as : List Atom) : List Tuple :=
  as.filterMap fun a => if a.predicate = name then a.toTuple? else none

theorem mem_tuplesFor {name : Predicate} {as : List Atom} {t : Tuple} :
    t ∈ tuplesFor name as ↔ ∃ a ∈ as, a.predicate = name ∧ a.toTuple? = some t := by
  unfold tuplesFor
  rw [List.mem_filterMap]
  refine exists_congr fun a => and_congr_right fun _ => ?_
  by_cases hname : a.predicate = name <;> simp [hname]

/-- All that inserting facts does, if it succeeds. -/
structure Entered (as : List Atom) (n : Nat) (db db' : Database) : Prop where
  /-- No relation comes or goes. -/
  names : db'.names = db.names
  /-- No arity changes. -/
  arity? : ∀ name, db'.arity? name = db.arity? name
  /-- The tuples arrive behind those that are there. -/
  tuples : ∀ name, db'.tuples name = (tuplesFor name as).foldl arrive (db.tuples name)
  /-- The new tuples are counted. -/
  totalTuples : db.WellFormed → db'.totalTuples = db.totalTuples + n

theorem entered_of_insertFacts {as : List Atom} {n : Nat} {db db' : Database}
    (h : insertFacts as db = .ok n db') : Entered as n db db' := by
  induction as generalizing db n with
  | nil =>
    obtain ⟨rfl, rfl⟩ := pure_eq_ok.mp h
    exact ⟨rfl, fun _ => rfl, fun _ => rfl, fun _ => rfl⟩
  | cons a as ih =>
    rw [insertFacts] at h
    cases ha : a.toTuple? with
    | none =>
      rw [ha] at h
      obtain ⟨hnames, harity, htuples, htotal⟩ := ih h
      refine ⟨hnames, harity, fun name => ?_, htotal⟩
      rw [htuples, tuplesFor, tuplesFor, List.filterMap_cons_none (by rw [ha, ite_self])]
    | some t =>
      rw [ha] at h
      obtain ⟨isNew, mid, hinsert, h⟩ := bind_eq_ok.mp h
      obtain ⟨more, last, hrest, h⟩ := bind_eq_ok.mp h
      obtain ⟨rfl, rfl⟩ := pure_eq_ok.mp h
      have hcall := insert_database_eq_ok.mp hinsert
      have hinserted := Database.inserted_of_insert hcall
      obtain ⟨hnames, harity, htuples, htotal⟩ := ih hrest
      refine ⟨hnames.trans hinserted.names, fun name => ?_, fun name => ?_, fun hdb => ?_⟩
      · rw [harity, hinserted.arity?]
      · rw [htuples, tuplesFor, tuplesFor, List.filterMap_cons, ha]
        by_cases hname : a.predicate = name
        · subst hname
          rw [if_pos rfl, hinserted.tuples_self, List.foldl_cons]
        · rw [if_neg hname, Database.tuples_congr (hinserted.find?_of_ne name (Ne.symm hname))]
      · have hmid := hdb.insert hcall
        rw [htotal hmid, hinserted.totalTuples hdb hmid]
        split <;> omega

/-- Inserting facts states them besides what was stated. -/
theorem Entered.holds {as : List Atom} {n : Nat} {db db' : Database} (h : Entered as n db db') :
    db'.holds = db.holds ∪ {g | ∃ a ∈ as, a.predicate = g.1 ∧ a.toTuple? = some g.2} := by
  ext ⟨name, t⟩
  rw [Database.mem_holds, h.tuples, mem_foldl_arrive, mem_tuplesFor]
  rfl

/-- Facts can be inserted where their relations are. -/
theorem exists_insertFacts {as : List Atom} {db : Database}
    (h : ∀ a ∈ as, ∀ t, a.toTuple? = some t → db.arity? a.predicate = some t.length) :
    ∃ n db', insertFacts as db = .ok n db' := by
  induction as generalizing db with
  | nil => exact ⟨0, db, rfl⟩
  | cons a as ih =>
    rw [insertFacts]
    cases ha : a.toTuple? with
    | none => exact ih fun b hb => h b (List.mem_cons_of_mem a hb)
    | some t =>
      obtain ⟨isNew, mid, hins⟩ := Database.insert_eq_ok (h a List.mem_cons_self t ha)
      have hinserted := Database.inserted_of_insert hins
      have hmid : ∀ b ∈ as, ∀ u, b.toTuple? = some u → mid.arity? b.predicate = some u.length := by
        intro b hb u hu
        rw [hinserted.arity?]
        exact h b (List.mem_cons_of_mem a hb) u hu
      obtain ⟨more, db', hrest⟩ := ih hmid
      refine ⟨if isNew then more + 1 else more, db', ?_⟩
      simp only
      rw [bind_of_eq_ok _ (insert_database_eq_ok.mpr hins), bind_of_eq_ok _ hrest]
      rfl

/-! ## Both steps -/

/-- What preparing a database for a program leads to, even if it is interrupted. -/
structure Prepared (p : Program) (db db' : Database) : Prop where
  wellFormed : db.WellFormed → db'.WellFormed
  subset : db.holds ⊆ db'.holds
  bounded : db'.holds ⊆ db.holds ∪ p.factAtoms

/-- **However materializing ends**, it has added nothing but facts. -/
theorem prepared_materialize (p : Program) (strata : Stratification) (st : σ) :
    Prepared p (contents st) (contents (finalState (materialize p strata st))) := by
  have hwide := widened_createAll p (strata.strata.flatMap Stratum.predicates) st
  unfold materialize
  have hwide' : Prepared p (contents st)
      (contents (finalState (createAll p (strata.strata.flatMap Stratum.predicates) st))) := by
    refine ⟨hwide.wellFormed, ?_, ?_⟩
    · rw [hwide.holds]
    · rw [hwide.holds]
      exact Set.subset_union_left
  refine finalState_bind (P := fun st' => Prepared p (contents st) (contents st')) hwide'
    fun _ st' _ h => ?_
  have hgrown := (refines_insertFacts_facts (σ := σ) p).grown st'
  refine ⟨fun hdb => hgrown.wellFormed (h.wellFormed hdb), h.subset.trans hgrown.holds_subset, ?_⟩
  exact hgrown.holds_subset_union.trans (Set.union_subset h.bounded Set.subset_union_right)

/-- What preparing a database for a program does if it succeeds. -/
structure Materialized (p : Program) (names : List Predicate) (db db' : Database) : Prop where
  wellFormed : db.WellFormed → db'.WellFormed
  holds : db'.holds = db.holds ∪ p.factAtoms
  arity? : ∀ name ∈ names, db'.arity? name = some ((p.arity? name).getD 0)
  find?_of_not_mem : ∀ name ∉ names, (∀ a ∈ p.facts, a.predicate ≠ name) →
    db'.relations.find? name = db.relations.find? name

theorem materialized_of_materialize {p : Program} {strata : Stratification} {db db' : Database}
    {n : Nat} (h : materialize p strata db = .ok n db') :
    Materialized p (strata.strata.flatMap Stratum.predicates) db db' := by
  obtain ⟨_, mid, hcreate, hinsert⟩ := bind_eq_ok.mp h
  have hopened := opened_of_createAll hcreate
  have hentered := entered_of_insertFacts hinsert
  have hgrown := (refines_insertFacts_facts p).grown mid
  rw [hinsert] at hgrown
  refine ⟨fun hdb => hgrown.wellFormed (hopened.wellFormed hdb), ?_, ?_, ?_⟩
  · rw [hentered.holds, hopened.holds]
    rfl
  · intro name hname
    exact (hentered.arity? name).trans (hopened.arity? name hname)
  · intro name hname hfacts
    refine (hgrown.find?_of_forall_ne ?_).trans (hopened.find?_of_not_mem hname)
    rintro g ⟨a, ha, hpred, -⟩
    rw [← hpred]
    exact hfacts a ha

end Datalog
