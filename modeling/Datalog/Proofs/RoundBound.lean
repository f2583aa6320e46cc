import Datalog.Proofs.Database.Counting
import Datalog.Proofs.Fixpoint.Termination
import Datalog.Proofs.Strategies
import Mathlib.Order.CompletePartialOrder

/-!
# How many rounds an evaluation without a limit takes

An evaluation without a limit succeeds, and how long it takes is bounded in terms of the constants
that the database and the program mention (`unlimited_evaluation_ends`).  No round invents a
constant, and every round of a stratum but the last adds an atom that was not there.  So there are
no more of these rounds than atoms over the predicates that the rules of the stratum define.

* `Program.domain`: the constants that a database or a program mentions.
* `Stratum.headPredicates`: the predicates that the rules of a stratum define.
* `StratumReport.Counts`: the report of a stratum speaks of rounds that add the given atoms.

## Why the count of a round is the growth of the database

A round counts the tuples that it has noted, and it notes a tuple when the storage calls it new.  A
tuple is called new once, so the notes are the atoms by which the database has grown, each of them
once, and the number of notes is the number of atoms (`RoundDone.totalTuples_eq`).
-/

namespace Datalog

/-- The constants among the arguments. -/
def Atom.constants (a : Atom) : List Constant := a.terms.filterMap Term.const?

namespace Program

/-- The constants of all clauses. -/
def constants (p : Program) : List Constant :=
  p.clauses.flatMap fun c => c.atoms.flatMap Atom.constants

/-- The constants that a database or a program mentions, each once. -/
def domain (p : Program) (db : Database) : List Constant := (db.constants ++ p.constants).eraseDups

theorem mem_constants_of_mem {p : Program} {c : Clause} (hc : c ∈ p.clauses) {a : Atom}
    (ha : a ∈ c.atoms) {k : Constant} (hk : Term.const k ∈ a.terms) : k ∈ p.constants :=
  List.mem_flatMap.mpr ⟨c, hc, List.mem_flatMap.mpr ⟨a, ha, List.mem_filterMap.mpr ⟨_, hk, rfl⟩⟩⟩

theorem mem_domain {p : Program} {db : Database} (hdb : db.WellFormed) {k : Constant} :
    k ∈ p.domain db ↔ (∃ g ∈ db.holds, k ∈ g.2) ∨ k ∈ p.constants := by
  unfold domain
  rw [List.mem_eraseDups, List.mem_append, hdb.mem_constants]

end Program

/-- The predicates that the rules of a stratum define, each once. -/
def Stratum.headPredicates (s : Stratum) : List Predicate :=
  (s.rules.map fun r => r.head.predicate).eraseDups

/-! ## The constants of a prepared database -/

/-- The values of a fact are among its constants. -/
theorem Atom.const_mem_of_values? {ts : List Term} {t : Tuple} (h : values? ts = some t)
    {k : Constant} (hk : k ∈ t) : Term.const k ∈ ts := by
  induction ts generalizing t with
  | nil =>
    rw [values?] at h
    cases h
    cases hk
  | cons u ts ih =>
    cases u with
    | var x =>
      rw [values?] at h
      cases h
    | const c =>
      rw [values?] at h
      obtain ⟨t', ht', rfl⟩ := Option.map_eq_some_iff.mp h
      rcases List.mem_cons.mp hk with rfl | hk
      · exact List.mem_cons_self
      · exact List.mem_cons_of_mem _ (ih ht' hk)

theorem Materialized.over_domain {p : Program} {names : List Predicate} {db db' : Database}
    (h : Materialized p names db db') (hdb : db.WellFormed) : db'.holds.Over (p.domain db) := by
  intro g hg k hk
  rw [Program.mem_domain hdb]
  rw [h.holds] at hg
  rcases hg with hold | ⟨a, ha, -, ht⟩
  · exact Or.inl ⟨g, hold, hk⟩
  · exact Or.inr (Program.mem_constants_of_mem (Program.mem_facts.mp ha)
      (List.mem_singleton.mpr rfl) (Atom.const_mem_of_values? ht hk))

namespace Stratification

variable {p : Program} {s : Stratum}

theorem headsOver (hs : s ∈ (ofProgram p).strata) (db : Database) : s.HeadsOver (p.domain db) := by
  intro r hr k hk
  obtain ⟨u, hu, hconst⟩ := List.mem_filterMap.mp hk
  cases u with
  | var x => cases hconst
  | const c =>
    cases hconst
    refine List.mem_eraseDups.mpr (List.mem_append_right _ ?_)
    exact Program.mem_constants_of_mem (Program.mem_rules.mp ((mem_rules_iff hs).mp hr).1)
      List.mem_cons_self hu

/-- The rules of a stratum define every predicate with the arity that the program gives it. -/
theorem perm_definedRelations (hp : p.Valid) (hs : s ∈ (ofProgram p).strata) :
    s.definedRelations.Perm (s.headPredicates.map fun name => (name, (p.arity? name).getD 0)) := by
  have harity : ∀ r ∈ s.rules, (p.arity? r.head.predicate).getD 0 = r.head.arity := by
    intro r hr
    rw [hp.arity?_of_mem (Program.mem_rules.mp ((mem_rules_iff hs).mp hr).1) List.mem_cons_self]
    rfl
  have hdefined : s.definedRelations.Nodup := nodup_eraseDups _
  have hheads : s.headPredicates.Nodup := nodup_eraseDups _
  refine (List.perm_ext_iff_of_nodup hdefined
    (hheads.map fun _ _ h => (Prod.mk.inj h).1)).mpr fun q => ?_
  unfold Stratum.definedRelations Stratum.headPredicates
  simp only [List.mem_eraseDups, List.mem_map]
  constructor
  · rintro ⟨r, hr, rfl⟩
    exact ⟨_, ⟨r, hr, rfl⟩, by rw [harity r hr]⟩
  · rintro ⟨_, ⟨r, hr, rfl⟩, rfl⟩
    exact ⟨r, hr, by rw [harity r hr]⟩

theorem length_candidates (hp : p.Valid) (hs : s ∈ (ofProgram p).strata) (cs : List Constant) :
    (s.candidates cs).length =
      total (s.headPredicates.map fun name => Nat.pow cs.length ((p.arity? name).getD 0)) := by
  rw [s.length_candidates, total_perm ((perm_definedRelations hp hs).map _), List.map_map]
  rfl

end Stratification

/-! ## The rounds of a stratum -/

/-- The report of a stratum speaks of rounds that add the given atoms: it tells how many rounds
there are and how many atoms each of them adds, and all but the last add some. -/
structure StratumReport.Counts (r : StratumReport) (As : List Interpretation) : Prop where
  rounds : r.rounds = As.length
  newPerRound : r.newPerRound = As.map Set.ncard
  productive : ∀ A ∈ As.dropLast, Set.Nonempty A

section Rounds

variable {settings : Settings} {place : Nat} {s : Stratum} {cs : List Constant} {p p' q : Progress}
  {db db' : Database}

/-- **A round counts the atoms by which the database grows.** -/
theorem RoundDone.totalTuples_eq (h : RoundDone settings place s p db p' db') :
    p'.added.totalTuples = (db'.holds \ db.holds).ncard := by
  rw [h.consistent.addedTo.wellFormed.totalTuples_eq_ncard, h.added, h.holds]

theorem RoundDone.counts {rounds : List Interpretation} (h : RoundDone settings place s p db p' db')
    (hp : p.stratum.Counts rounds) (hsome : ∀ A ∈ rounds, Set.Nonempty A) :
    p'.stratum.Counts (rounds ++ [db'.holds \ db.holds]) where
  rounds := by rw [h.rounds, hp.rounds, List.length_append, List.length_singleton]
  newPerRound := by
    rw [h.newPerRound, hp.newPerRound, h.totalTuples_eq, List.map_append, List.map_singleton]
  productive := by
    rw [List.dropLast_concat]
    exact hsome

/-- Rounds that end without an error, after others that have all added something. -/
theorem counts_of_evaluateRounds {limit : Nat} {p : Progress} {db : Database}
    (hp : p.Consistent s db) (hheads : s.HeadsOver cs) (hdb : db.holds.Over cs)
    {rounds : List Interpretation} (hcounts : p.stratum.Counts rounds)
    (hsome : ∀ A ∈ rounds, Set.Nonempty A) (n : Nat)
    (h : evaluateRounds settings place limit s n p db = .ok q db') :
    let more := additionsOfRounds settings place s n p db
    q.stratum.Counts (rounds ++ more) ∧ more.length ≤ s.lacking cs db + 1 ∧
      db'.holds.Over cs ∧ q.report.strata = p.report.strata := by
  obtain ⟨p', mid, hround, hdone⟩ := evaluateRound_eq settings place hp
  have hcounts' := hdone.counts hcounts hsome
  rw [evaluateRounds_of_round hround] at h
  rw [additionsOfRounds, hround]
  simp only
  by_cases hstop : (p'.added.totalTuples = 0 || !s.recursive) = true
  · rw [if_pos hstop] at h ⊢
    obtain ⟨rfl, rfl⟩ := EStateM.Result.ok.inj h
    exact ⟨hcounts', Nat.le_add_left 1 _, hdone.over hheads hdb, hdone.strata⟩
  · rw [if_neg hstop] at h ⊢
    rw [Bool.or_eq_true, decide_eq_true_iff, not_or] at hstop
    have hless := hdone.lacking_lt hheads hdb hstop.1
    have hnew : (mid.holds \ db.holds).Nonempty := by
      refine Set.nonempty_of_ncard_ne_zero ?_
      rw [← hdone.totalTuples_eq]
      exact hstop.1
    have hsome' : ∀ A ∈ rounds ++ [mid.holds \ db.holds], Set.Nonempty A := by
      intro A hA
      rcases List.mem_append.mp hA with hA | hA
      · exact hsome A hA
      · rw [List.mem_singleton.mp hA]
        exact hnew
    cases n with
    | zero => cases h
    | succ n =>
      obtain ⟨hall, hlength, hover, hstrata⟩ := counts_of_evaluateRounds hdone.consistent hheads
        (hdone.over hheads hdb) hcounts' hsome' n h
      rw [List.append_assoc] at hall
      exact ⟨hall, Nat.succ_le_succ (hlength.trans hless), hover, hstrata.trans hdone.strata⟩
termination_by n

/-- A stratum that is evaluated without an error adds its report, and takes one round more than
there are candidates at most. -/
theorem Stratum.counts_of_evaluate (s : Stratum) (hheads : s.HeadsOver cs) (hwf : db.WellFormed)
    (hs : s.SupportedBy db) (hdb : db.holds.Over cs) {report report' : Report}
    (h : s.evaluate settings place report db = .ok report' db') :
    ∃ r, report'.strata = report.strata ++ [r] ∧
      r.Counts (s.additions settings place report db) ∧
      r.rounds ≤ 1 + (s.candidates cs).length ∧ db'.holds.Over cs := by
  rw [Stratum.evaluate_def] at h
  rw [Stratum.additions]
  split at h
  · next hempty =>
    obtain ⟨rfl, rfl⟩ := pure_eq_ok.mp h
    rw [if_pos hempty]
    exact ⟨s.begun, rfl, ⟨rfl, rfl, fun _ hA => absurd hA List.not_mem_nil⟩, Nat.zero_le _, hdb⟩
  · next hrules =>
    obtain ⟨q, mid, hrounds, h⟩ := bind_eq_ok.mp h
    obtain ⟨rfl, rfl⟩ := pure_eq_ok.mp h
    rw [if_neg hrules]
    have hbegun : s.begun.Counts [] := ⟨rfl, rfl, fun _ hA => absurd hA List.not_mem_nil⟩
    obtain ⟨hcounts, hlength, hover, hstrata⟩ := counts_of_evaluateRounds
      (.begin hwf hs report rfl) hheads hdb hbegun (fun _ hA => absurd hA List.not_mem_nil) _
      hrounds
    rw [List.nil_append] at hcounts
    refine ⟨q.stratum, congrArg (· ++ [q.stratum]) hstrata, hcounts, ?_, hover⟩
    have hlacking := s.lacking_le cs db
    rw [hcounts.rounds]
    exact hlength.trans (by omega)

end Rounds

/-! ## All strata -/

section Strata

variable {settings : Settings} {cs : List Constant}

/-- Strata that are evaluated without an error: what is reported of each of them, and how many
rounds it takes. -/
theorem counts_of_evaluateFrom {strata : List Stratum} (hheads : ∀ s ∈ strata, s.HeadsOver cs)
    {place : Nat} {report report' : Report} {db db' : Database} (hready : Ready strata db)
    (hdb : db.holds.Over cs)
    (h : evaluateFrom settings place strata report db = .ok report' db') :
    let rounds := additionsFrom settings place strata report db
    ∃ rs, report'.strata = report.strata ++ rs ∧ rs.length = strata.length ∧
      rounds.length = strata.length ∧ db'.holds.Over cs ∧
      ∀ (i : Nat) s r As, strata[i]? = some s → rs[i]? = some r → rounds[i]? = some As →
        r.Counts As ∧ r.rounds ≤ 1 + (s.candidates cs).length := by
  induction strata generalizing place report db with
  | nil =>
    obtain ⟨rfl, rfl⟩ := pure_eq_ok.mp h
    exact ⟨[], (List.append_nil _).symm, rfl, rfl, hdb, fun i s r As hs => by cases hs⟩
  | cons s strata ih =>
    obtain ⟨report₁, db₁, hfirst, hrest⟩ := bind_eq_ok.mp h
    have hready₁ := hready.tail (Stratum.grown_of_evaluate hready.wellFormed hready.head hfirst)
    obtain ⟨r, hreport, hcounts, hle, hover₁⟩ := s.counts_of_evaluate (hheads s List.mem_cons_self)
      hready.wellFormed hready.head hdb hfirst
    obtain ⟨rs, hstrata, hlength, hrounds, hover, hall⟩ :=
      ih (fun s' hs' => hheads s' (List.mem_cons_of_mem s hs')) hready₁ hover₁ hrest
    rw [additionsFrom, hfirst]
    refine ⟨r :: rs, ?_, congrArg (· + 1) hlength, congrArg (· + 1) hrounds, hover, ?_⟩
    · rw [hstrata, hreport, List.append_assoc]
      rfl
    · intro i s' r' As hs' hr' hAs
      cases i with
      | zero =>
        obtain rfl := Option.some.inj hs'
        obtain rfl := Option.some.inj hr'
        obtain rfl := Option.some.inj hAs
        exact ⟨hcounts, hle⟩
      | succ i => exact hall i s' r' As hs' hr' hAs

end Strata

/-! ## Rounds add what was not there -/

/-- The rounds add atoms that are neither there at first nor added by another of them. -/
def AllNew (I : Interpretation) (rounds : List Interpretation) : Prop :=
  (I :: rounds).Pairwise Disjoint

theorem AllNew.append {I J : Interpretation} {rounds more : List Interpretation}
    (h : AllNew I rounds) (hJ : J = I ∪ allOf rounds) (h' : AllNew J more) :
    AllNew I (rounds ++ more) := by
  obtain ⟨hfirst, hmore⟩ := List.pairwise_cons.mp h'
  have hlater : ∀ A ∈ I :: rounds, ∀ B ∈ more, Disjoint A B := by
    intro A hA B hB
    refine (hfirst B hB).mono_left ?_
    rw [hJ]
    rcases List.mem_cons.mp hA with rfl | hA
    · exact Set.subset_union_left
    · have hsub : A ⊆ allOf rounds := fun g hg => ⟨A, hA, hg⟩
      exact hsub.trans Set.subset_union_right
  unfold AllNew
  rw [← List.cons_append]
  exact List.pairwise_append.mpr ⟨h, hmore, hlater⟩

section New

variable {settings : Settings} {s : Stratum}

theorem allNew_nil (I : Interpretation) : AllNew I [] := List.pairwise_singleton _ _

theorem allNew_additionsOfRounds {place : Nat} {p : Progress} {db : Database}
    (hp : p.Consistent s db) (n : Nat) :
    AllNew db.holds (additionsOfRounds settings place s n p db) := by
  obtain ⟨p', db', hround, hdone⟩ := evaluateRound_eq settings place hp
  have hfirst : AllNew db.holds [db'.holds \ db.holds] :=
    List.pairwise_pair.mpr Set.disjoint_sdiff_right
  have hsplit : db'.holds = db.holds ∪ allOf [db'.holds \ db.holds] := by
    rw [allOf_cons, allOf_nil, Set.union_empty, Set.union_sdiff_cancel hdone.grown.holds_subset]
  rw [additionsOfRounds, hround]
  simp only
  split
  · exact hfirst
  · cases n with
    | zero => exact hfirst
    | succ n => exact hfirst.append hsplit (allNew_additionsOfRounds hdone.consistent n)
termination_by n

theorem Stratum.allNew_additions (s : Stratum) {place : Nat} {report : Report} {db : Database}
    (hdb : db.WellFormed) (hs : s.SupportedBy db) :
    AllNew db.holds (s.additions settings place report db) := by
  rw [Stratum.additions]
  split
  · exact allNew_nil _
  · exact allNew_additionsOfRounds (.begin hdb hs report rfl) _

theorem allNew_additionsFrom {strata : List Stratum} {place : Nat} {report : Report}
    {db : Database} (hready : Ready strata db) :
    AllNew db.holds (additionsFrom settings place strata report db).flatten := by
  induction strata generalizing place report db with
  | nil => exact allNew_nil _
  | cons s strata ih =>
    have hnew : AllNew db.holds (s.additions settings place report db) :=
      s.allNew_additions hready.wellFormed hready.head
    have hholds := s.holds_of_additions settings place report hready.wellFormed hready.head
    rw [additionsFrom, List.flatten_cons]
    cases hrun : s.evaluate settings place report db with
    | error e db' =>
      rw [List.flatten_nil, List.append_nil]
      exact hnew
    | ok report' db' =>
      rw [hrun] at hholds
      refine hnew.append hholds (ih ?_)
      exact hready.tail (Stratum.grown_of_evaluate hready.wellFormed hready.head hrun)

end New

/-- **An evaluation without a limit ends, after a bounded number of rounds.**  From a database that
has been prepared for a program, it succeeds with either strategy.  All values in the database are
then among the constants that the database and the program have mentioned at first.  The database
has grown by what the rounds have added, and no round has added an atom that was there before.  The
report counts for each stratum the rounds and the atoms that they have added; every round but the
last has added some; and there is at most one more round than tuples of the said constants over the
predicates that the rules of the stratum define. -/
theorem unlimited_evaluation_ends {p : Program} (hp : p.Reachable) {db₀ db₁ : Database}
    (hdb : db₀.Reachable) {n : Nat}
    (hmat : materialize p (Stratification.ofProgram p) db₀ = .ok n db₁) {settings : Settings}
    (hmax : settings.maxRounds = none) :
    let strata := Stratification.ofProgram p
    let rounds := additions settings strata db₁
    ∃ report db₂, evaluate settings strata db₁ = .ok report db₂ ∧
      (∀ g ∈ db₂.holds, ∀ c ∈ g.2, c ∈ p.domain db₀) ∧
      db₂.holds = db₁.holds ∪ allOf rounds.flatten ∧ AllNew db₁.holds rounds.flatten ∧
      report.strata.length = strata.strata.length ∧ rounds.length = strata.strata.length ∧
      ∀ (i : Nat) s r As, strata.strata[i]? = some s → report.strata[i]? = some r →
        rounds[i]? = some As → r.Counts As ∧ r.rounds ≤ 1 + total (s.headPredicates.map fun name =>
          Nat.pow (p.domain db₀).length ((p.arity? name).getD 0)) := by
  intro strata rounds
  have hmaterialized := materialized_of_materialize hmat
  have hready := hmaterialized.ready hp.valid hdb.wellFormed
  obtain ⟨report, db₂, heval⟩ : ∃ report db₂, evaluate settings strata db₁ = .ok report db₂ :=
    exists_evaluateFrom hmax hready
  have hheads : ∀ s ∈ strata.strata, s.HeadsOver (p.domain db₀) :=
    fun _ hs => Stratification.headsOver hs db₀
  obtain ⟨rs, hreport, hlength, hrounds, hover, hall⟩ := counts_of_evaluateFrom hheads hready
    (hmaterialized.over_domain hdb.wellFormed) heval
  obtain rfl : report.strata = rs := hreport
  have hholds : (finalState (evaluate settings strata db₁)).holds =
      db₁.holds ∪ allOf rounds.flatten := holds_of_additionsFrom hready
  rw [heval] at hholds
  refine ⟨report, db₂, heval, hover, hholds, allNew_additionsFrom hready, hlength, hrounds, ?_⟩
  intro i s r As hs hr hAs
  obtain ⟨hcounts, hle⟩ := hall i s r As hs hr hAs
  rw [Stratification.length_candidates hp.valid (List.mem_of_getElem? hs)] at hle
  exact ⟨hcounts, hle⟩

/-- The evaluation of `paths` ends without a limit.  Its second stratum defines paths between four
constants, so it takes seventeen rounds at most. -/
theorem paths_take_seventeen_rounds_at_most :
    ∃ (db db₂ : Database) (report : Report) (r : StratumReport),
      evaluate { maxRounds := none } (Stratification.ofProgram paths) db = .ok report db₂ ∧
      report.strata[1]? = some r ∧ r.rounds ≤ 17 := by
  have hpaths : paths.Reachable := .extend _ .empty
  obtain ⟨n, hmat⟩ := exists_materialize_paths
  have hmax : ({ maxRounds := none } : Settings).maxRounds = none := rfl
  obtain ⟨report, db₂, heval, -, -, -, hlength, hrounds, hall⟩ :=
    unlimited_evaluation_ends hpaths reachable_seeded hmat hmax
  have htwo : (Stratification.ofProgram paths).strata.length = 2 := by
    rw [Stratification.ofProgram_eq_counted]
    decide +kernel
  have hbound : ((Stratification.ofProgram paths).strata[1]?.map fun s =>
      total (s.headPredicates.map fun name =>
        Nat.pow (paths.domain seeded).length ((paths.arity? name).getD 0))) = some 16 := by
    rw [Stratification.ofProgram_eq_counted]
    decide +kernel
  obtain ⟨s, hs, hsixteen⟩ := Option.map_eq_some_iff.mp hbound
  have hr := List.getElem?_eq_getElem (l := report.strata) (i := 1) (by omega)
  have hAs := List.getElem?_eq_getElem (i := 1) (by rw [hrounds]; omega)
  obtain ⟨-, hle⟩ := hall 1 s _ _ hs hr hAs
  rw [hsixteen] at hle
  exact ⟨_, db₂, report, _, heval, hr, hle⟩

end Datalog
