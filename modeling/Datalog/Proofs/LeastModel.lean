import Datalog.Proofs.Fixpoint.Materialize
import Datalog.Proofs.Stratification

/-!
# Evaluation computes the least model

If the relations of a program can be created and its facts inserted, and the evaluation then ends
without an error, the database states exactly the least set of ground atoms that contains what it
stated at first and makes all clauses true (`holds_isLeast_of_evaluate`).

The strata are the classes of mutually dependent predicates in the order of their dependencies, so
no rule reads a predicate of a later stratum, and a rule of a stratum that is not recursive reads no
predicate of its own.  This is what saturation stratum by stratum needs.
-/

namespace Datalog

namespace Stratification

variable {p : Program}

theorem layered (hp : p.Valid) : Layered (ofProgram p).strata where
  flagged s hs hflag r hr b hb hmem := by
    obtain ⟨hrule, hhead⟩ := (mem_rules_iff hs).mp hr
    obtain ⟨-, -, hback⟩ := (mem_predicates_iff hp hs hhead).mp hmem
    have hdep : p.DependsOn r.head.predicate b.predicate := ⟨r, hrule, rfl, b, hb, rfl⟩
    have hrec := (recursive_iff hp hs hhead).mpr (Relation.TransGen.head' hdep hback)
    rw [hflag] at hrec
    cases hrec
  sorted := by
    refine (sorted hp).imp_of_mem fun {s s'} hs _ hnot r hr b hb hmem => ?_
    obtain ⟨hrule, hhead⟩ := (mem_rules_iff hs).mp hr
    exact hnot _ hhead _ hmem (.single ⟨r, hrule, rfl, b, hb, rfl⟩)

/-- The rules of the strata are those of the program. -/
theorem mem_flatMap_rules (hp : p.Valid) {r : Rule} :
    r ∈ (ofProgram p).strata.flatMap Stratum.rules ↔ r ∈ p.rules := by
  rw [List.mem_flatMap]
  constructor
  · rintro ⟨s, hs, hr⟩
    exact ((mem_rules_iff hs).mp hr).1
  · intro hr
    obtain ⟨s, hs, hhead⟩ := exists_stratum (hp.head_mem_predicates hr)
    exact ⟨s, hs, (mem_rules_iff hs).mpr ⟨hr, hhead⟩⟩

end Stratification

/-- A database that has been prepared for a program has the relations that its strata need. -/
theorem Materialized.supportedBy {p : Program} (hp : p.Valid) {db db' : Database}
    (h : Materialized p ((Stratification.ofProgram p).strata.flatMap Stratum.predicates) db db')
    {s : Stratum} (hs : s ∈ (Stratification.ofProgram p).strata) : s.SupportedBy db' := by
  have harity : ∀ r ∈ s.rules, ∀ a ∈ (Clause.rule r).atoms,
      db'.arity? a.predicate = some a.arity := by
    intro r hr a ha
    have hrule := Program.mem_rules.mp ((Stratification.mem_rules_iff hs).mp hr).1
    have hmem := hp.mem_predicates_iff.mpr ⟨_, hrule, a, ha, rfl⟩
    rw [h.arity? _ ((Stratification.perm_predicates p).mem_iff.mpr hmem),
      hp.arity?_of_mem hrule ha]
    rfl
  refine ⟨fun r hr => ?_, fun r hr => ?_, fun r hr b hb => ?_, fun r hr => ?_⟩
  · exact ((Stratification.mem_rules_iff hs).mp hr).2
  · exact hp.rangeRestricted ((Stratification.mem_rules_iff hs).mp hr).1
  · exact harity r hr b (List.mem_cons_of_mem _ hb)
  · exact harity r hr r.head List.mem_cons_self

theorem Materialized.ready {p : Program} (hp : p.Valid) {db db' : Database}
    (h : Materialized p ((Stratification.ofProgram p).strata.flatMap Stratum.predicates) db db')
    (hdb : db.WellFormed) : Ready (Stratification.ofProgram p).strata db' :=
  ⟨h.wellFormed hdb, fun _ hs => h.supportedBy hp hs⟩

/-- A model contains the stated facts, and the rules hold in it. -/
theorem Program.Valid.mem_models_iff {p : Program} (hp : p.Valid) {base I : Interpretation} :
    I ∈ models p.clauses base ↔ base ∪ p.factAtoms ⊆ I ∧ ∀ r ∈ p.rules, r.HoldsIn I := by
  constructor
  · rintro ⟨hbase, hclauses⟩
    refine ⟨Set.union_subset hbase ?_, fun r hr => hclauses _ (mem_rules.mp hr)⟩
    rintro ⟨name, t⟩ ⟨a, ha, rfl, ht⟩
    have hholds := hclauses _ (mem_facts.mp ha) fun _ => ""
    rw [Atom.ground_of_toTuple? ht] at hholds
    exact hholds
  · rintro ⟨hsub, hrules⟩
    refine ⟨Set.subset_union_left.trans hsub, fun c hc => ?_⟩
    cases c with
    | fact a =>
      intro v
      obtain ⟨t, ht⟩ := hp.exists_toTuple? (mem_facts.mpr hc)
      rw [Atom.ground_of_toTuple? ht v]
      exact hsub (Or.inr ⟨a, mem_facts.mpr hc, rfl, ht⟩)
    | rule r => exact hrules r (mem_rules.mpr hc)

section Evaluation

variable {p : Program} (hp : p.Valid) {settings : Settings} {db₀ db₁ db₂ : Database} {n : Nat}
  {report : Report} (hdb : db₀.WellFormed)
  (hmat : materialize p (Stratification.ofProgram p) db₀ = .ok n db₁)
  (heval : evaluate settings (Stratification.ofProgram p) db₁ = .ok report db₂)

include hp hdb hmat heval

theorem saturated_of_evaluate :
    Saturated ((Stratification.ofProgram p).strata.flatMap Stratum.rules)
      ((Stratification.ofProgram p).strata.flatMap Stratum.predicates) db₁ db₂ := by
  have hprepared := materialized_of_materialize hmat
  exact saturated_of_evaluateFrom (Stratification.layered hp) (hprepared.ready hp hdb) heval

theorem isLeast_of_evaluate : IsLeast (models p.clauses db₀.holds) db₂.holds := by
  have hprepared := materialized_of_materialize hmat
  have hsat := saturated_of_evaluate hp hdb hmat heval
  constructor
  · rw [hp.mem_models_iff, ← hprepared.holds]
    refine ⟨hsat.grown.holds_subset, fun r hr => ?_⟩
    exact hsat.closed r ((Stratification.mem_flatMap_rules hp).mpr hr)
  · intro I hI
    rw [hp.mem_models_iff, ← hprepared.holds] at hI
    refine hsat.least I hI.1 fun r hr => ?_
    exact hI.2 r ((Stratification.mem_flatMap_rules hp).mp hr)

/-- Relations that the program does not mention stay as they are. -/
theorem find?_of_evaluate {name : Predicate} (hname : name ∉ p.predicates) :
    db₂.relations.find? name = db₀.relations.find? name := by
  have hprepared := materialized_of_materialize hmat
  have hsat := saturated_of_evaluate hp hdb hmat heval
  have hnames : name ∉ (Stratification.ofProgram p).strata.flatMap Stratum.predicates :=
    fun hmem => hname ((Stratification.perm_predicates p).mem_iff.mp hmem)
  have hsame₁ : db₁.relations.find? name = db₀.relations.find? name := by
    refine hprepared.find?_of_not_mem name hnames fun a ha heq => hname ?_
    exact hp.mem_predicates_iff.mpr
      ⟨_, Program.mem_facts.mp ha, a, List.mem_singleton.mpr rfl, heq⟩
  rw [← hsame₁]
  refine hsat.grown.find?_of_forall_ne fun g hg heq => hnames ?_
  rw [← heq]
  exact hg

end Evaluation

/-- **Evaluation computes the least model.**  After the facts of a program have been inserted into a
database and its rules have been evaluated without an error, with any settings, the database states
exactly the atoms of the least interpretation that contains what it stated at first and makes all
clauses true at once; and relations that the program does not mention are what they were. -/
theorem holds_isLeast_of_evaluate {p : Program} (hp : p.Reachable) {settings : Settings}
    {db₀ db₁ db₂ : Database} (hdb : db₀.Reachable) {n : Nat} {report : Report}
    (hmat : materialize p (Stratification.ofProgram p) db₀ = .ok n db₁)
    (heval : evaluate settings (Stratification.ofProgram p) db₁ = .ok report db₂) :
    IsLeast (models p.clauses db₀.holds) db₂.holds ∧
      ∀ name ∉ p.predicates, db₂.relations.find? name = db₀.relations.find? name :=
  ⟨isLeast_of_evaluate hp.valid hdb.wellFormed hmat heval,
    fun _ hname => find?_of_evaluate hp.valid hdb.wellFormed hmat heval hname⟩

/-- Paths along edges, with one edge stated as a fact. -/
def paths : Program :=
  finalState (Program.extend
    [.fact ⟨"edge", [.const "a", .const "b"]⟩,
      .rule ⟨⟨"path", [.var "X", .var "Y"]⟩, [⟨"edge", [.var "X", .var "Y"]⟩]⟩,
      .rule ⟨⟨"path", [.var "X", .var "Z"]⟩,
        [⟨"path", [.var "X", .var "Y"]⟩, ⟨"path", [.var "Y", .var "Z"]⟩]⟩] {})

/-- A database with another edge, and with a relation that `paths` does not mention. -/
def seeded : Database :=
  let edge := finalState (Storage.create (σ := Database) "edge" 2 ∅)
  let colour := finalState (Storage.create (σ := Database) "colour" 1 edge)
  let stained := finalState (Storage.insert (σ := Database) "colour" ["red"] colour)
  finalState (Storage.insert (σ := Database) "edge" ["b", "c"] stained)

theorem reachable_seeded : seeded.Reachable := by
  refine Storage.reachable_insert (σ := Database) "edge" ["b", "c"] ?_
  refine Storage.reachable_insert (σ := Database) "colour" ["red"] ?_
  refine Storage.reachable_create (σ := Database) "colour" 1 ?_
  exact Storage.reachable_create (σ := Database) "edge" 2 Database.Reachable.empty

theorem exists_materialize_paths :
    ∃ n, materialize paths (Stratification.ofProgram paths) seeded =
      .ok n (finalState (materialize paths (Stratification.ofProgram paths) seeded)) :=
  eq_ok_of_succeeds (by rw [Stratification.ofProgram_eq_counted]; decide +kernel)

theorem exists_evaluate_paths (tracked : Bool) :
    ∃ report, evaluate { trackProvenance := tracked } (Stratification.ofProgram paths)
        (finalState (materialize paths (Stratification.ofProgram paths) seeded)) =
      .ok report (finalState (evaluate { trackProvenance := tracked }
        (Stratification.ofProgram paths)
        (finalState (materialize paths (Stratification.ofProgram paths) seeded)))) := by
  refine eq_ok_of_succeeds ?_
  rw [Stratification.ofProgram_eq_counted]
  cases tracked <;> decide +kernel

theorem path_over_both_edges :
    ∃ db : Database, IsLeast (models paths.clauses seeded.holds) db.holds ∧
      ("path", ["a", "c"]) ∈ db.holds ∧ db.relations.find? "colour" =
        seeded.relations.find? "colour" := by
  obtain ⟨n, hmat⟩ := exists_materialize_paths
  obtain ⟨report, heval⟩ := exists_evaluate_paths false
  obtain ⟨hleast, hsame⟩ := holds_isLeast_of_evaluate (.extend _ .empty) reachable_seeded hmat heval
  refine ⟨_, hleast, ?_, hsame "colour" (by decide +kernel)⟩
  rw [Database.mem_holds, Stratification.ofProgram_eq_counted]
  decide +kernel

end Datalog
