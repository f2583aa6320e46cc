import Datalog.Proofs.Limit

/-!
# Evaluating again changes nothing

A database that an evaluation has completed is at rest.  Its relations and facts are there, so
preparing it once more does nothing; and all rules of the program hold in what it states, so a
further evaluation, with whatever settings, finds nothing to add
(`evaluating_again_changes_nothing`).

* `StratumReport.TellsNothing`: what is reported of a stratum to which nothing is added.
* `createAll_of_arity?`, `insertFacts_of_mem`: preparing a prepared database.
* `RoundDone.eq_of_holds`: a round of rules that hold.

## Why no limit is in the way

A limit counts rounds that add something.  The first round of a stratum at rest adds nothing and is
the last, so even a limit of no rounds is kept.  The rules of *all* strata have to hold for this,
not only those of the stratum evaluated last; they do since no stratum adds to what an earlier one
reads (`saturated_of_evaluateFrom`).
-/

namespace Datalog

open Storage

/-! ## Preparing a prepared database -/

/-- Relations that are there with the wanted arities are not created again. -/
theorem createAll_of_arity? {p : Program} {names : List Predicate} {db : Database}
    (h : ∀ name ∈ names, db.arity? name = some ((p.arity? name).getD 0)) :
    createAll p names db = .ok () db := by
  induction names with
  | nil => rfl
  | cons name names ih =>
    have hname := h name List.mem_cons_self
    obtain ⟨db', hcreate⟩ : ∃ db', db.create name ((p.arity? name).getD 0) = .ok db' :=
      Database.create_eq_ok fun k hk => Option.some.inj (hk.symm.trans hname)
    have hmem : name ∈ db.names := by
      rw [Database.mem_names_iff, hname]
      exact Option.some_ne_none _
    obtain rfl := (Database.created_of_create hcreate).eq_of_mem hmem
    rw [createAll, bind_of_eq_ok _ (create_database_eq_ok.mpr hcreate)]
    exact ih fun other hother => h other (List.mem_cons_of_mem name hother)

/-- Facts that are there are not inserted again. -/
theorem insertFacts_of_mem {as : List Atom} {db : Database} (hdb : db.WellFormed)
    (h : ∀ a ∈ as, ∀ t, a.toTuple? = some t → (a.predicate, t) ∈ db.holds) :
    insertFacts as db = .ok 0 db := by
  induction as with
  | nil => rfl
  | cons a as ih =>
    have hrest := ih fun b hb => h b (List.mem_cons_of_mem a hb)
    rw [insertFacts]
    cases ha : a.toTuple? with
    | none => exact hrest
    | some t =>
      have hthere : t ∈ db.tuples a.predicate := h a List.mem_cons_self t ha
      obtain ⟨isNew, db', hinsert⟩ := Database.insert_eq_ok (hdb.arity?_of_mem hthere)
      obtain rfl : isNew = false := by
        rw [(Database.inserted_of_insert hinsert).isNew_eq]
        exact decide_eq_false (not_not_intro hthere)
      obtain rfl := Database.eq_of_insert_of_mem hinsert hthere
      simp only
      rw [bind_of_eq_ok _ (insert_database_eq_ok.mpr hinsert), bind_of_eq_ok _ hrest]
      rfl

/-! ## Strata whose rules hold -/

/-- What is reported of a stratum to which nothing is added: one round that adds nothing, or none if
there are no rules. -/
structure StratumReport.TellsNothing (s : Stratum) (r : StratumReport) : Prop where
  predicates : r.predicates = s.predicates
  recursive : r.recursive = s.recursive
  rounds : r.rounds = if s.rules = [] then 0 else 1
  newPerRound : r.newPerRound = if s.rules = [] then [] else [0]

theorem StratumReport.TellsNothing.derived {s : Stratum} {r : StratumReport}
    (h : r.TellsNothing s) : r.derived = 0 := by
  rw [StratumReport.derived, h.newPerRound]
  split <;> rfl

section Rounds

variable {settings : Settings} {place : Nat} {s : Stratum} {p p' : Progress} {db db' : Database}

/-- A round of rules that hold leaves the database as it is. -/
theorem RoundDone.eq_of_holds (h : RoundDone settings place s p db p' db')
    (hrules : ∀ r ∈ s.rules, r.HoldsIn db.holds) : db' = db :=
  h.grown.eq_of_holds_subset (h.subset subset_rfl hrules)

/-- A round that adds nothing has nothing to note. -/
theorem RoundDone.derivation?_of_eq (h : RoundDone settings place s p db p' db')
    (hsame : db' = db) (name : Predicate) (t : Tuple) :
    p'.report.derivation? name t = p.report.derivation? name t := by
  have hnone : (name, t) ∉ p'.added.listing := by
    have hempty := h.consistent.addedTo.wellFormed.totalTuples_eq_zero_iff.mp (h.eq_iff.mp hsame)
    rw [h.consistent.addedTo.wellFormed.mem_listing, hempty]
    exact Set.notMem_empty _
  rw [h.derivation?, if_neg fun hboth => hnone hboth.2, Option.or_none]

/-- **A stratum whose rules hold is left as it is**, whatever the settings. -/
theorem Stratum.evaluate_of_holds (settings : Settings) (place : Nat) (hdb : db.WellFormed)
    (hs : s.SupportedBy db) (hrules : ∀ r ∈ s.rules, r.HoldsIn db.holds) (report : Report) :
    ∃ report' r, s.evaluate settings place report db = .ok report' db ∧
      report'.strata = report.strata ++ [r] ∧ r.TellsNothing s ∧
      ∀ name t, report'.derivation? name t = report.derivation? name t := by
  rw [Stratum.evaluate_def]
  by_cases hempty : s.rules = []
  · rw [if_pos (List.isEmpty_iff.mpr hempty)]
    refine ⟨_, s.begun, rfl, rfl, ⟨rfl, rfl, ?_, ?_⟩, fun _ _ => rfl⟩
    · exact (if_pos hempty).symm
    · exact (if_pos hempty).symm
  · rw [if_neg fun hnil => hempty (List.isEmpty_iff.mp hnil)]
    have hbegun : s.begun.rounds = 0 := rfl
    obtain ⟨q, mid, hround, hdone⟩ := evaluateRound_eq settings place
      (Progress.Consistent.begin hdb hs report hbegun)
    obtain rfl := hdone.eq_of_holds hrules
    have hnone : q.added.totalTuples = 0 := hdone.eq_iff.mp rfl
    have hrounds : ∀ n,
        evaluateRounds settings place n s n ⟨report, s.begun, ∅⟩ mid = .ok q mid := by
      intro n
      rw [evaluateRounds_of_round hround, hnone]
      rfl
    refine ⟨q.closed, q.stratum, ?_, ?_, ⟨hdone.predicates, hdone.recursive, ?_, ?_⟩, ?_⟩
    · rw [bind_of_eq_ok _ (hrounds _)]
      rfl
    · rw [Progress.closed, hdone.strata]
    · rw [hdone.rounds, if_neg hempty]
      rfl
    · rw [hdone.newPerRound, hnone, if_neg hempty]
      rfl
    · exact hdone.derivation?_of_eq rfl

end Rounds

/-- **Strata whose rules hold are left as they are**, whatever the settings. -/
theorem evaluateFrom_of_holds (settings : Settings) {strata : List Stratum} {db : Database}
    (hready : Ready strata db) (hrules : ∀ s ∈ strata, ∀ r ∈ s.rules, r.HoldsIn db.holds)
    (place : Nat) (report : Report) :
    ∃ report' rs, evaluateFrom settings place strata report db = .ok report' db ∧
      report'.strata = report.strata ++ rs ∧
      List.Forall₂ (fun s r => r.TellsNothing s) strata rs ∧
      ∀ name t, report'.derivation? name t = report.derivation? name t := by
  induction strata generalizing place report with
  | nil => exact ⟨report, [], rfl, (List.append_nil _).symm, .nil, fun _ _ => rfl⟩
  | cons s strata ih =>
    obtain ⟨report₁, r, hfirst, hstrata₁, hr, hold₁⟩ := s.evaluate_of_holds settings place
      hready.wellFormed hready.head (hrules s List.mem_cons_self) report
    obtain ⟨report', rs, hrest, hstrata, hrs, hold⟩ := ih (hready.tail (.refl db : db.Grown ∅ db))
      (fun s' hs' => hrules s' (List.mem_cons_of_mem s hs')) (place + 1) report₁
    refine ⟨report', r :: rs, ?_, ?_, .cons hr hrs, fun name t => ?_⟩
    · rw [evaluateFrom, bind_of_eq_ok _ hfirst, hrest]
    · rw [hstrata, hstrata₁, List.append_assoc]
      rfl
    · rw [hold, hold₁]

/-- Where nothing is reported of any stratum, nothing is counted. -/
theorem Report.derived_eq_zero {report : Report} {strata : List Stratum}
    (h : List.Forall₂ (fun s r => r.TellsNothing s) strata report.strata) : report.derived = 0 := by
  unfold Report.derived
  generalize report.strata = rs at h
  induction h with
  | nil => rfl
  | cons hr _ ih => rw [List.map_cons, total_cons, hr.derived, ih]

/-- **Evaluating again changes nothing.**  After an evaluation of a program without an error, the
database is left exactly as it is, up to the order of relations and tuples, if it is prepared for
the program once more, which adds no facts, and also if the program is evaluated once more with any
settings.  This succeeds, even if no round may add anything; every stratum with rules takes one
round, which adds nothing, every other stratum takes none, and no tuple has a derivation. -/
theorem evaluating_again_changes_nothing {p : Program} (hp : p.Reachable) {settings : Settings}
    {db₀ db₁ db₂ : Database} (hdb : db₀.Reachable) {n : Nat} {report : Report}
    (hmat : materialize p (Stratification.ofProgram p) db₀ = .ok n db₁)
    (heval : evaluate settings (Stratification.ofProgram p) db₁ = .ok report db₂) :
    let strata := Stratification.ofProgram p
    materialize p strata db₂ = .ok 0 db₂ ∧
    ∀ settings', ∃ report', evaluate settings' strata db₂ = .ok report' db₂ ∧
      report'.derived = 0 ∧
      List.Forall₂ (fun s r => r.TellsNothing s) strata.strata report'.strata ∧
      ∀ name t, report'.derivation? name t = none := by
  intro strata
  have hprepared := materialized_of_materialize hmat
  have hsat := saturated_of_evaluate hp.valid hdb.wellFormed hmat heval
  have hready := hprepared.ready hp.valid hdb.wellFormed
  have hready₂ : Ready strata.strata db₂ :=
    ⟨hsat.grown.wellFormed hready.wellFormed,
      fun s hs => (hready.supported s hs).of_arity? hsat.grown.arity?⟩
  refine ⟨?_, fun settings' => ?_⟩
  · refine bind_eq_ok.mpr ⟨(), db₂, createAll_of_arity? fun name hname => ?_,
      insertFacts_of_mem hready₂.wellFormed fun a ha t ht => hsat.grown.holds_subset ?_⟩
    · rw [hsat.grown.arity?]
      exact hprepared.arity? name hname
    · rw [hprepared.holds]
      exact Or.inr ⟨a, ha, rfl, ht⟩
  · obtain ⟨report', rs, hrun, hstrata, hrs, hold⟩ := evaluateFrom_of_holds settings' hready₂
      (fun s hs r hr => hsat.closed r (List.mem_flatMap.mpr ⟨s, hs, hr⟩)) 0 {}
    obtain rfl : report'.strata = rs := hstrata
    exact ⟨report', hrun, Report.derived_eq_zero hrs, hrs, hold⟩

/-- The paths along both edges are complete after an evaluation by latest tuples.  Evaluated again
over whole relations, with provenance and without a single round that may add something, `paths`
leaves the database as it is. -/
theorem paths_are_at_rest :
    ∃ (db : Database) (report : Report), ("path", ["a", "c"]) ∈ db.holds ∧
      materialize paths (Stratification.ofProgram paths) db = .ok 0 db ∧
      evaluate ⟨.naive, some 0, true, true⟩ (Stratification.ofProgram paths) db = .ok report db ∧
      report.derived = 0 ∧ report.derivation? "path" ["a", "c"] = none := by
  obtain ⟨n, hmat⟩ := exists_materialize_paths
  obtain ⟨report, heval⟩ := exists_evaluate_paths false
  obtain ⟨hagain, hrest⟩ :=
    evaluating_again_changes_nothing (.extend _ .empty) reachable_seeded hmat heval
  obtain ⟨report', hrun, hnone, -, hderivation⟩ := hrest ⟨.naive, some 0, true, true⟩
  refine ⟨_, report', ?_, hagain, hrun, hnone, hderivation "path" ["a", "c"]⟩
  rw [Database.mem_holds, Stratification.ofProgram_eq_counted]
  decide +kernel

end Datalog
