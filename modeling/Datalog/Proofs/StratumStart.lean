import Datalog.Proofs.Fixpoint.MatchingRounds

/-!
# What a stratum starts from

Strata are evaluated one after the other, so what the database states when a stratum starts depends
on the strata before it.  But of the atoms that matter to the stratum, those over its own predicates
are still the ones of the prepared database, because no other stratum adds any; and those that its
rules read from elsewhere are complete, they are the ones of the least model of the whole program.
Hence the part that matters does not depend on the order of the strata (`agreeOn_start`).

* `Reported`: the run of the stratum that an entry of a report speaks of.
* `Program.start`: what a stratum starts from, as far as it matters.

## Why an earlier stratum is complete

Add to what the database states all atoms over the predicates of the strata that remain.  In the
result all clauses are true: rules of the remaining strata, because their heads are; rules of the
strata that are done, because they held before, and they do not read the predicates that were
filled up.  So the least model is contained in it, and for predicates that are done this means that
the database states all of the model.
-/

namespace Datalog

open Interpretation (AgreeOn)

/-! ## Evaluation up to a stratum -/

theorem evaluateFrom_concat {σ : Type} [Storage σ] (settings : Settings) (place : Nat)
    (strata : List Stratum) (s : Stratum) (report : Report) :
    evaluateFrom (σ := σ) settings place (strata ++ [s]) report =
      evaluateFrom settings place strata report >>=
        s.evaluate settings (place + strata.length) := by
  induction strata generalizing place report with
  | nil =>
    simp only [List.nil_append, evaluateFrom, pure_bind, List.length_nil, Nat.add_zero, bind_pure]
  | cons t strata ih =>
    rw [List.cons_append, evaluateFrom, evaluateFrom, bind_assoc]
    refine congrArg (_ >>= ·) (funext fun report' => ?_)
    rw [ih, List.length_cons, Nat.add_right_comm, Nat.add_assoc]

/-- The stratum at place `i` of the given ones starts, after those before it, with some records and
some database, and is evaluated without an error; the entry is what it adds to the records. -/
structure Reported (settings : Settings) (place : Nat) (strata : List Stratum) (report : Report)
    (db : Database) (i : Nat) (x : StratumReport) (s : Stratum) (start : Report) (mid : Database) :
    Prop where
  stratum : strata[i]? = some s
  signature : x.signature = s.signature
  before : evaluateFrom settings place (strata.take i) report db = .ok start mid
  run : ∃ report' db', s.evaluate settings (place + i) start mid = .ok report' db' ∧
    report'.strata = start.strata ++ [x]

theorem Reported.cons {settings : Settings} {place : Nat} {t : Stratum} {strata : List Stratum}
    {report report₁ start : Report} {db db₁ mid : Database} {i : Nat} {x : StratumReport}
    {s : Stratum} (hfirst : t.evaluate settings place report db = .ok report₁ db₁)
    (h : Reported settings (place + 1) strata report₁ db₁ i x s start mid) :
    Reported settings place (t :: strata) report db (i + 1) x s start mid where
  stratum := h.stratum
  signature := h.signature
  before := by
    rw [List.take_succ_cons, evaluateFrom, bind_of_eq_ok _ hfirst]
    exact h.before
  run := by
    rw [← Nat.add_assoc, Nat.add_right_comm]
    exact h.run

theorem Reported.mem_predicates_iff {settings : Settings} {place : Nat} {strata : List Stratum}
    {report start : Report} {db mid : Database} {i : Nat} {x : StratumReport} {s : Stratum}
    (h : Reported settings place strata report db i x s start mid) {name : Predicate} :
    name ∈ x.predicates ↔ name ∈ s.predicates := by
  have hnames : x.predicates.toFinset = s.predicates.toFinset := (Prod.mk.inj h.signature).1
  rw [← List.mem_toFinset, hnames, List.mem_toFinset]

/-- **The report of an evaluation** has an entry for each stratum. -/
theorem reported_of_evaluateFrom {settings : Settings} {strata : List Stratum} {place : Nat}
    {report report' : Report} {db db' : Database} (hready : Ready strata db)
    (h : evaluateFrom settings place strata report db = .ok report' db') :
    ∃ xs, report'.strata = report.strata ++ xs ∧
      xs.map StratumReport.signature = strata.map Stratum.signature ∧
      ∀ (i : Nat) x, xs[i]? = some x →
        ∃ s start mid, Reported settings place strata report db i x s start mid := by
  induction strata generalizing place report db with
  | nil =>
    obtain ⟨rfl, -⟩ := pure_eq_ok.mp h
    exact ⟨[], (List.append_nil _).symm, rfl, fun i x hx => by cases hx⟩
  | cons s strata ih =>
    obtain ⟨report₁, db₁, hfirst, hrest⟩ := bind_eq_ok.mp h
    have hready₁ := hready.tail (Stratum.grown_of_evaluate hready.wellFormed hready.head hfirst)
    obtain ⟨x, hstrata, hsignature⟩ :=
      s.strata_of_evaluate hready.wellFormed hready.head hfirst
    obtain ⟨xs, hstrata', hsignatures, hall⟩ := ih hready₁ hrest
    refine ⟨x :: xs, ?_, ?_, fun i y hy => ?_⟩
    · rw [hstrata', hstrata, List.append_assoc]
      rfl
    · rw [List.map_cons, List.map_cons, hsignature, hsignatures]
    · cases i with
      | zero =>
        obtain rfl := Option.some.inj hy
        exact ⟨s, report, db, rfl, hsignature, rfl, report₁, db₁, hfirst, hstrata⟩
      | succ i =>
        obtain ⟨s', start, mid, hreported⟩ := hall i y hy
        exact ⟨s', start, mid, hreported.cons hfirst⟩

section Entries

variable {settings : Settings} {strata : List Stratum} {report : Report} {db db' : Database}
  (hready : Ready strata db) (h : evaluateFrom settings 0 strata {} db = .ok report db')

include hready h

theorem signatures_of_evaluateFrom :
    report.strata.map StratumReport.signature = strata.map Stratum.signature := by
  obtain ⟨xs, hstrata, hsignatures, -⟩ := reported_of_evaluateFrom hready h
  rw [hstrata]
  exact hsignatures

/-- Every entry speaks of a stratum. -/
theorem exists_reported_of_entry {x : StratumReport} (hx : x ∈ report.strata) :
    ∃ i s start mid, Reported settings 0 strata {} db i x s start mid := by
  obtain ⟨xs, hstrata, -, hall⟩ := reported_of_evaluateFrom hready h
  rw [hstrata] at hx
  obtain ⟨i, hi⟩ := List.mem_iff_getElem?.mp hx
  exact ⟨i, hall i x hi⟩

/-- Every stratum has an entry. -/
theorem exists_reported_of_mem {s : Stratum} (hs : s ∈ strata) :
    ∃ i x start mid, Reported settings 0 strata {} db i x s start mid := by
  obtain ⟨xs, -, hsignatures, hall⟩ := reported_of_evaluateFrom hready h
  obtain ⟨i, hi⟩ := List.mem_iff_getElem?.mp hs
  have hentry : (xs.map StratumReport.signature)[i]? = some s.signature := by
    rw [hsignatures, List.getElem?_map, hi]
    rfl
  rw [List.getElem?_map] at hentry
  obtain ⟨x, hx, -⟩ := Option.map_eq_some_iff.mp hentry
  obtain ⟨s₁, start, mid, hreported⟩ := hall i x hx
  obtain rfl := Option.some.inj (hreported.stratum.symm.trans hi)
  exact ⟨i, x, start, mid, hreported⟩

end Entries

/-! ## Strata that are done -/

section Split

variable {strata front back : List Stratum}

theorem Layered.of_append (h : Layered (front ++ back)) : Layered front where
  flagged s hs := h.flagged s (List.mem_append_left back hs)
  sorted := (List.pairwise_append.mp h.sorted).1

theorem Ready.of_append {db : Database} (h : Ready (front ++ back) db) : Ready front db where
  wellFormed := h.wellFormed
  supported s hs := h.supported s (List.mem_append_left back hs)

end Split

/-- What matters to a stratum when it starts: the prepared atoms over its own predicates, and the
least model of the program for all others. -/
def Program.start (p : Program) (base : Interpretation) (s : Stratum) : Interpretation :=
  {g | if g.1 ∈ s.predicates then g ∈ base ∪ p.factAtoms else g ∈ leastModel p.clauses base}

section Evaluation

variable {p : Program} {settings : Settings} {front back : List Stratum} {db₀ db₁ db : Database}
  {report : Report} (hp : p.Valid) (hdb : db₀.WellFormed)
  (hmat : Materialized p ((Stratification.ofProgram p).strata.flatMap Stratum.predicates) db₀ db₁)

include hp hdb hmat

section Split

variable (hsplit : (Stratification.ofProgram p).strata = front ++ back)
  (hrun : evaluateFrom settings 0 front {} db₁ = .ok report db)

include hsplit hrun

theorem saturated_front :
    Saturated (front.flatMap Stratum.rules) (front.flatMap Stratum.predicates) db₁ db := by
  have hlayered := Stratification.layered hp
  have hready := hmat.ready hp hdb
  rw [hsplit] at hlayered hready
  exact saturated_of_evaluateFrom hlayered.of_append hready.of_append hrun

/-- The relations that the strata need are still there. -/
theorem ready_front : Ready (Stratification.ofProgram p).strata db := by
  have hready := hmat.ready hp hdb
  have hgrown := (saturated_front hp hdb hmat hsplit hrun).grown
  exact ⟨hgrown.wellFormed hready.wellFormed,
    fun s hs => (hready.supported s hs).of_arity? hgrown.arity?⟩

/-- Nothing is added to the strata that remain. -/
theorem mem_holds_of_not_mem_front {g : GroundAtom}
    (hg : g.1 ∉ front.flatMap Stratum.predicates) : g ∈ db.holds ↔ g ∈ db₁.holds := by
  have hsat := saturated_front hp hdb hmat hsplit hrun
  exact ⟨fun hmem => (hsat.grown.holds_subset_union hmem).resolve_right hg,
    fun hmem => hsat.grown.holds_subset hmem⟩

/-- Filling up the strata that remain makes all clauses true. -/
theorem filled_mem_models :
    db.holds ∪ {g | g.1 ∈ back.flatMap Stratum.predicates} ∈ models p.clauses db₀.holds := by
  have hsat := saturated_front hp hdb hmat hsplit hrun
  rw [hp.mem_models_iff, ← hmat.holds]
  refine ⟨hsat.grown.holds_subset.trans Set.subset_union_left, fun r hr v hbody => ?_⟩
  obtain ⟨s, hs, hrule⟩ := List.mem_flatMap.mp ((Stratification.mem_flatMap_rules hp).mpr hr)
  have hsorted := (Stratification.layered hp).sorted
  have hhead := ((Stratification.mem_rules_iff hs).mp hrule).2
  rw [hsplit] at hs hsorted
  -- A rule that is done does not read what has been filled up, and a later one finds its head
  -- there.
  rcases List.mem_append.mp hs with hfront | hback
  · refine Or.inl (hsat.closed r (List.mem_flatMap.mpr ⟨s, hfront, hrule⟩) v fun b hb => ?_)
    refine (hbody b hb).resolve_right fun hlater => ?_
    obtain ⟨s', hs', hmem⟩ := List.mem_flatMap.mp hlater
    exact (List.pairwise_append.mp hsorted).2.2 s hfront s' hs' r hrule b hb hmem
  · exact Or.inr (List.mem_flatMap.mpr ⟨s, hback, hhead⟩)

/-- **Strata that are done are complete.** -/
theorem mem_holds_of_not_mem_back {g : GroundAtom} (hg : g.1 ∉ back.flatMap Stratum.predicates) :
    g ∈ db.holds ↔ g ∈ leastModel p.clauses db₀.holds := by
  have hleast := isLeast_leastModel p.clauses db₀.holds
  constructor
  · intro hmem
    have hmodel := hp.mem_models_iff.mp hleast.1
    rw [← hmat.holds] at hmodel
    refine (saturated_front hp hdb hmat hsplit hrun).least _ hmodel.1 (fun r hr => ?_) hmem
    obtain ⟨s, hs, hrule⟩ := List.mem_flatMap.mp hr
    refine hmodel.2 r ((Stratification.mem_flatMap_rules hp).mp ?_)
    rw [hsplit]
    exact List.mem_flatMap.mpr ⟨s, List.mem_append_left back hs, hrule⟩
  · intro hmem
    exact (hleast.2 (filled_mem_models hp hdb hmat hsplit hrun) hmem).resolve_right hg

end Split

/-- **What a stratum starts from**, as far as it matters, does not depend on what comes before. -/
theorem agreeOn_start {i : Nat} {s : Stratum}
    (hs : (Stratification.ofProgram p).strata[i]? = some s)
    (hrun : evaluateFrom settings 0 ((Stratification.ofProgram p).strata.take i) {} db₁ =
      .ok report db) : AgreeOn s.Reads db.holds (p.start db₀.holds s) := by
  obtain ⟨hi, rfl⟩ := List.getElem?_eq_some_iff.mp hs
  have hsplit := (List.take_append_drop i (Stratification.ofProgram p).strata).symm
  have hdrop := List.drop_eq_getElem_cons hi
  have hapart := (List.nodup_flatMap.mp (Stratification.nodup_predicates hp)).2
  have hsorted := (Stratification.layered hp).sorted
  rw [hsplit, hdrop] at hapart hsorted
  intro g hg
  -- The own predicates are untouched by the strata before, all others belong to one of them.
  by_cases hown : g.1 ∈ (Stratification.ofProgram p).strata[i].predicates
  · have hnot : g.1 ∉ ((Stratification.ofProgram p).strata.take i).flatMap Stratum.predicates := by
      intro hmem
      obtain ⟨s', hs', hmem⟩ := List.mem_flatMap.mp hmem
      exact (List.pairwise_append.mp hapart).2.2 s' hs' _ List.mem_cons_self hmem hown
    rw [mem_holds_of_not_mem_front hp hdb hmat hsplit hrun hnot, hmat.holds]
    exact (iff_of_eq (if_pos hown)).symm
  · obtain ⟨r, hr, b, hb, hpred⟩ := hg.resolve_left hown
    have hnot : g.1 ∉ ((Stratification.ofProgram p).strata.drop i).flatMap Stratum.predicates := by
      rw [hdrop, List.flatMap_cons, List.mem_append]
      rintro (hself | hlater)
      · exact hown hself
      · obtain ⟨s', hs', hmem⟩ := List.mem_flatMap.mp hlater
        rw [← hpred] at hmem
        have htail := (List.pairwise_append.mp hsorted).2.1
        exact (List.pairwise_cons.mp htail).1 s' hs' r hr b hb hmem
    rw [mem_holds_of_not_mem_back hp hdb hmat hsplit hrun hnot]
    exact (iff_of_eq (if_neg hown)).symm

end Evaluation

end Datalog
