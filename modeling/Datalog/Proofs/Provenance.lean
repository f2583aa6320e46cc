import Datalog.Proofs.LeastModel
import Mathlib.Order.CompletePartialOrder

/-!
# What provenance records

With provenance, an evaluation notes for the tuples that it adds the stratum and the round.  The
note tells more than when the tuple happened to be found: the round is the first application of the
stratum's rules, counted from the database that the stratum starts with, that gives the tuple
(`derivation_is_first_stage`).

## Why the round cannot be late

A round adds all that one application of the rules adds, although its joins leave out most rules
after the first round and read only the latest tuples (`evaluateRound_eq`).  So after `n` rounds the
database states the `n`-th *stage*, the atoms after `n` applications.  Stages only grow, hence an
atom that the `n`-th stage lacks and the next one has is in no earlier one.  The round that adds it
notes it, and no later round does, since the atom is then no longer new.
-/

namespace Datalog

namespace Stratum

variable {s : Stratum} {I : Interpretation} {g : GroundAtom} {n : Nat}

/-- The atoms after some applications of the rules. -/
def stage (s : Stratum) (I : Interpretation) (n : Nat) : Interpretation := s.advance^[n] I

theorem stage_succ (s : Stratum) (I : Interpretation) (n : Nat) :
    s.stage I (n + 1) = s.advance (s.stage I n) := Function.iterate_succ_apply' _ _ _

theorem monotone_stage (s : Stratum) (I : Interpretation) : Monotone (s.stage I) := by
  refine monotone_nat_of_le_succ fun n => ?_
  rw [stage_succ]
  exact s.subset_advance _

/-- The application that adds an atom is the first that gives it. -/
theorem isLeast_stage (hnew : g ∈ s.stage I (n + 1)) (hold : g ∉ s.stage I n) :
    IsLeast {m | 1 ≤ m ∧ g ∈ s.stage I m} (n + 1) := by
  refine ⟨⟨Nat.le_add_left 1 n, hnew⟩, ?_⟩
  rintro m ⟨-, hm⟩
  by_contra hlt
  exact hold (s.monotone_stage I (Nat.le_of_lt_succ (Nat.lt_of_not_le hlt)) hm)

end Stratum

/-! ## One stratum -/

/-- What is noted on the way from one database to another, in a stratum that has started from the
atoms `I`: for the atoms that are added, the application of the rules that gives them first, and
nothing for any other atom. -/
structure Dated (place : Nat) (s : Stratum) (I : Interpretation) (report : Report) (db : Database)
    (report' : Report) (db' : Database) : Prop where
  subset : db.holds ⊆ db'.holds
  mem_predicates : ∀ g ∈ db'.holds, g ∉ db.holds → g.1 ∈ s.predicates
  new : ∀ g ∈ db'.holds, g ∉ db.holds → ∃ r, IsLeast {n | 1 ≤ n ∧ g ∈ s.stage I n} r ∧
    report'.derivation? g.1 g.2 = (report.derivation? g.1 g.2).or (some ⟨place, r⟩)
  old : ∀ g, g ∈ db.holds ∨ g ∉ db'.holds →
    report'.derivation? g.1 g.2 = report.derivation? g.1 g.2

namespace Dated

variable {place : Nat} {s : Stratum} {I : Interpretation} {report report₁ report₂ : Report}
  {db db₁ db₂ : Database}

theorem nothing (place : Nat) (s : Stratum) (I : Interpretation) (db : Database)
    (h : report₁.derivations = report.derivations) : Dated place s I report db report₁ db where
  subset := subset_rfl
  mem_predicates _ hg hnot := absurd hg hnot
  new _ hg hnot := absurd hg hnot
  old g _ := by rw [Report.derivation?, h]; rfl

theorem trans (h : Dated place s I report db report₁ db₁)
    (h' : Dated place s I report₁ db₁ report₂ db₂) : Dated place s I report db report₂ db₂ where
  subset := h.subset.trans h'.subset
  mem_predicates g hg hnot := by
    by_cases hmid : g ∈ db₁.holds
    · exact h.mem_predicates g hmid hnot
    · exact h'.mem_predicates g hg hmid
  new g hg hnot := by
    by_cases hmid : g ∈ db₁.holds
    · rw [h'.old g (Or.inl hmid)]
      exact h.new g hmid hnot
    · rw [← h.old g (Or.inr hmid)]
      exact h'.new g hg hmid
  old g hg := by
    rcases hg with hold | hnever
    · rw [h'.old g (Or.inl (h.subset hold)), h.old g (Or.inl hold)]
    · rw [h'.old g (Or.inr hnever), h.old g (Or.inr fun hmid => hnever (h'.subset hmid))]

end Dated

section Rounds

variable {settings : Settings} {place limit : Nat} {s : Stratum} {I : Interpretation}
  {p p' : Progress} {db db' : Database}

/-- A round that follows on `n` others notes the application `n + 1`. -/
theorem RoundDone.dated (h : RoundDone settings place s p db p' db')
    (hprov : settings.trackProvenance = true) (hstage : db.holds = s.stage I p.stratum.rounds) :
    Dated place s I p.report db p'.report db' := by
  have hmem : ∀ g : GroundAtom,
      (g.1, g.2) ∈ p'.added.listing ↔ g ∈ db'.holds ∧ g ∉ db.holds := by
    intro g
    rw [h.consistent.addedTo.wellFormed.mem_listing, h.added, ← h.holds]
    rfl
  refine ⟨h.grown.holds_subset, ?_, ?_, ?_⟩
  · intro g hg hnot
    exact (h.grown_predicates.holds_subset_union hg).resolve_left hnot
  · intro g hg hnot
    refine ⟨p.stratum.rounds + 1, Stratum.isLeast_stage ?_ ?_, ?_⟩
    · rw [Stratum.stage_succ, ← hstage, ← h.holds]
      exact hg
    · rw [← hstage]
      exact hnot
    · rw [h.derivation?, if_pos ⟨hprov, (hmem g).mpr ⟨hg, hnot⟩⟩]
  · intro g hg
    have hnot : (g.1, g.2) ∉ p'.added.listing := by
      rw [hmem]
      tauto
    rw [h.derivation?, if_neg fun hboth => hnot hboth.2, Option.or_none]

theorem RoundsDone.dated (h : RoundsDone settings place s p db p' db')
    (hprov : settings.trackProvenance = true) (hstage : db.holds = s.stage I p.stratum.rounds) :
    Dated place s I p.report db p'.report db' := by
  induction h with
  | last hdone _ => exact hdone.dated hprov hstage
  | @step p q p' db mid db' hdone _ _ ih =>
    have hstage' : mid.holds = s.stage I q.stratum.rounds := by
      rw [hdone.rounds, Stratum.stage_succ, ← hstage, hdone.holds]
    exact (hdone.dated hprov hstage).trans (ih hstage')

theorem Stratum.dated_of_evaluate (hprov : settings.trackProvenance = true) (hdb : db.WellFormed)
    (hs : s.SupportedBy db) {report report' : Report}
    (h : s.evaluate settings place report db = .ok report' db') :
    Dated place s db.holds report db report' db' := by
  rw [Stratum.evaluate_def] at h
  split at h
  · obtain ⟨rfl, rfl⟩ := pure_eq_ok.mp h
    exact .nothing place s db.holds db rfl
  · obtain ⟨q, db₁, hrounds, h⟩ := bind_eq_ok.mp h
    obtain ⟨rfl, rfl⟩ := pure_eq_ok.mp h
    have hrounds := roundsDone_of_evaluateRounds (.begin hdb hs report rfl) _ hrounds
    have hdated := hrounds.dated hprov rfl
    exact ⟨hdated.subset, hdated.mem_predicates, hdated.new, hdated.old⟩

end Rounds

/-! ## All strata -/

/-- The stratum at place `i` of the given ones adds the atom, and its round `r` is the first
application of its rules that gives the atom. -/
def AddedAt (settings : Settings) (place : Nat) (strata : List Stratum) (report : Report)
    (db : Database) (g : GroundAtom) (i r : Nat) : Prop :=
  ∃ s report' db', strata[i]? = some s ∧ g.1 ∈ s.predicates ∧
    evaluateFrom settings place (strata.take i) report db = .ok report' db' ∧
    IsLeast {n | 1 ≤ n ∧ g ∈ s.stage db'.holds n} r

theorem AddedAt.cons {settings : Settings} {place : Nat} {s : Stratum} {strata : List Stratum}
    {report report' : Report} {db db' : Database} {g : GroundAtom} {i r : Nat}
    (hfirst : s.evaluate settings place report db = .ok report' db')
    (h : AddedAt settings (place + 1) strata report' db' g i r) :
    AddedAt settings place (s :: strata) report db g (i + 1) r := by
  obtain ⟨s', report₁, db₁, hs', hmem, hrun, hleast⟩ := h
  refine ⟨s', report₁, db₁, hs', hmem, ?_, hleast⟩
  rw [List.take_succ_cons, evaluateFrom, bind_of_eq_ok _ hfirst]
  exact hrun

theorem dated_of_evaluateFrom {settings : Settings} (hprov : settings.trackProvenance = true)
    {strata : List Stratum} {place : Nat} {report report' : Report} {db db' : Database}
    (hready : Ready strata db)
    (h : evaluateFrom settings place strata report db = .ok report' db') :
    db.holds ⊆ db'.holds ∧
    (∀ g ∈ db'.holds, g ∉ db.holds → ∃ i r, AddedAt settings place strata report db g i r ∧
      report'.derivation? g.1 g.2 = (report.derivation? g.1 g.2).or (some ⟨place + i, r⟩)) ∧
    ∀ g, g ∈ db.holds ∨ g ∉ db'.holds →
      report'.derivation? g.1 g.2 = report.derivation? g.1 g.2 := by
  induction strata generalizing place report db with
  | nil =>
    obtain ⟨rfl, rfl⟩ := pure_eq_ok.mp h
    exact ⟨subset_rfl, fun g hg hnot => absurd hg hnot, fun _ _ => rfl⟩
  | cons s strata ih =>
    obtain ⟨report₁, db₁, hfirst, hrest⟩ := bind_eq_ok.mp h
    have hdated := s.dated_of_evaluate hprov hready.wellFormed hready.head hfirst
    have hready₁ := hready.tail (Stratum.grown_of_evaluate hready.wellFormed hready.head hfirst)
    obtain ⟨hsubset, hnew, hold⟩ := ih hready₁ hrest
    refine ⟨hdated.subset.trans hsubset, fun g hg hnot => ?_, fun g hg => ?_⟩
    · by_cases hmid : g ∈ db₁.holds
      · obtain ⟨r, hleast, hr⟩ := hdated.new g hmid hnot
        refine ⟨0, r, ⟨s, report, db, rfl, hdated.mem_predicates g hmid hnot, rfl, hleast⟩, ?_⟩
        rw [hold g (Or.inl hmid), hr, Nat.add_zero]
      · obtain ⟨i, r, hadded, hr⟩ := hnew g hg hmid
        refine ⟨i + 1, r, hadded.cons hfirst, ?_⟩
        rw [hr, hdated.old g (Or.inr hmid), Nat.add_right_comm, Nat.add_assoc]
    · rcases hg with hthere | hnever
      · rw [hold g (Or.inl (hdated.subset hthere)), hdated.old g (Or.inl hthere)]
      · rw [hold g (Or.inr hnever), hdated.old g (Or.inr fun hmid => hnever (hsubset hmid))]

/-! ## Without provenance -/

section Untracked

variable {settings : Settings} (hprov : settings.trackProvenance = false)

include hprov

theorem RoundsDone.derivations_eq {place : Nat} {s : Stratum} {p p' : Progress} {db db' : Database}
    (h : RoundsDone settings place s p db p' db') :
    p'.report.derivations = p.report.derivations := by
  induction h with
  | last hdone _ => rw [hdone.derivations, hprov, if_neg Bool.false_ne_true]
  | step hdone _ _ ih => rw [ih, hdone.derivations, hprov, if_neg Bool.false_ne_true]

/-- Without provenance, nothing is noted. -/
theorem derivations_of_evaluateFrom {strata : List Stratum} {place : Nat} {report report' : Report}
    {db db' : Database} (hready : Ready strata db)
    (h : evaluateFrom settings place strata report db = .ok report' db') :
    report'.derivations = report.derivations := by
  induction strata generalizing place report db with
  | nil =>
    obtain ⟨rfl, -⟩ := pure_eq_ok.mp h
    rfl
  | cons s strata ih =>
    obtain ⟨report₁, db₁, hfirst, hrest⟩ := bind_eq_ok.mp h
    have hgrown := Stratum.grown_of_evaluate hready.wellFormed hready.head hfirst
    rw [ih (hready.tail hgrown) hrest]
    rw [Stratum.evaluate_def] at hfirst
    split at hfirst
    · obtain ⟨rfl, -⟩ := EStateM.Result.ok.inj hfirst
      rfl
    · obtain ⟨q, mid, hrounds, hclosed⟩ := bind_eq_ok.mp hfirst
      obtain ⟨rfl, -⟩ := pure_eq_ok.mp hclosed
      exact (roundsDone_of_evaluateRounds (.begin hready.wellFormed hready.head report rfl) _
        hrounds).derivations_eq hprov

end Untracked

/-- **Provenance records the first stage.**  After an evaluation with provenance, with either
strategy and any limit, a tuple has a derivation exactly if the evaluation has added it.  The
derivation names the stratum that holds the predicate, and the round is the least number of
applications of the stratum's rules, at least one, that give the tuple from the database that the
stratum started with.  So the facts of the program and the tuples that were there before have
none. -/
theorem derivation_is_first_stage {p : Program} (hp : p.Reachable) {db₀ db₁ db₂ : Database}
    (hdb : db₀.Reachable) {n : Nat}
    (hmat : materialize p (Stratification.ofProgram p) db₀ = .ok n db₁) {settings : Settings}
    (hprov : settings.trackProvenance = true) {report : Report}
    (heval : evaluate settings (Stratification.ofProgram p) db₁ = .ok report db₂)
    (name : Predicate) (t : Tuple) :
    let strata := Stratification.ofProgram p
    ((report.derivation? name t).isSome ↔ (name, t) ∈ db₂.holds \ db₁.holds) ∧
    (∀ d, report.derivation? name t = some d → strata.stratumOf? name = some d.stratum ∧
      ∃ s report' db, strata.strata[d.stratum]? = some s ∧
        evaluateFrom settings 0 (strata.strata.take d.stratum) {} db₁ = .ok report' db ∧
        IsLeast {n | 1 ≤ n ∧ (name, t) ∈ s.advance^[n] db.holds} d.round) ∧
    ((name, t) ∈ db₀.holds ∪ p.factAtoms → report.derivation? name t = none) := by
  intro strata
  have hmaterialized := materialized_of_materialize hmat
  obtain ⟨-, hnew, hold⟩ :=
    dated_of_evaluateFrom hprov (hmaterialized.ready hp.valid hdb.wellFormed) heval
  have hnone : (name, t) ∉ db₂.holds \ db₁.holds → report.derivation? name t = none := by
    intro hnot
    refine hold (name, t) ?_
    rw [Set.mem_sdiff] at hnot
    tauto
  have hsome : (name, t) ∈ db₂.holds \ db₁.holds →
      ∃ i r, AddedAt settings 0 strata.strata {} db₁ (name, t) i r ∧
        report.derivation? name t = some ⟨i, r⟩ := by
    rintro ⟨hg, hnot⟩
    obtain ⟨i, r, hadded, hr⟩ := hnew (name, t) hg hnot
    rw [Nat.zero_add] at hr
    exact ⟨i, r, hadded, hr⟩
  refine ⟨⟨fun h => ?_, fun h => ?_⟩, fun d hd => ?_, fun hbase => ?_⟩
  · by_contra hnot
    rw [hnone hnot] at h
    cases h
  · obtain ⟨i, r, -, hr⟩ := hsome h
    rw [hr]
    rfl
  · have hadded : (name, t) ∈ db₂.holds \ db₁.holds := by
      by_contra hnot
      rw [hnone hnot] at hd
      cases hd
    obtain ⟨i, r, ⟨s, report', db, hs, hmem, hrun, hleast⟩, hr⟩ := hsome hadded
    rw [hr] at hd
    obtain rfl := Option.some.inj hd
    exact ⟨(Stratification.stratumOf?_eq_some_iff hp.valid).mpr ⟨s, hs, hmem⟩,
      s, report', db, hs, hrun, hleast⟩
  · refine hnone fun hadded => hadded.2 ?_
    rw [hmaterialized.holds]
    exact hbase

/-- The path over both edges of `paths` takes two applications of the rules, and the edges, of which
one is a fact and the other was there before, have no derivation. -/
theorem path_over_both_edges_in_round_two :
    ∃ (s : Stratum) (report : Report) (db : Database),
      (Stratification.ofProgram paths).stratumOf? "path" = some 1 ∧
      (Stratification.ofProgram paths).strata[1]? = some s ∧
      IsLeast {n | 1 ≤ n ∧ ("path", ["a", "c"]) ∈ s.advance^[n] db.holds} 2 ∧
      ("edge", ["b", "c"]) ∈ seeded.holds ∧
      report.derivation? "edge" ["b", "c"] = none := by
  obtain ⟨n, hmat⟩ := exists_materialize_paths
  obtain ⟨report, heval⟩ := exists_evaluate_paths true
  have hround : ((value? (evaluate { trackProvenance := true } (Stratification.ofProgram paths)
      (finalState (materialize paths (Stratification.ofProgram paths) seeded)))).bind
        fun report => report.derivation? "path" ["a", "c"]) = some ⟨1, 2⟩ := by
    rw [Stratification.ofProgram_eq_counted]
    decide +kernel
  rw [heval] at hround
  have hedge : ("edge", ["b", "c"]) ∈ seeded.holds := by
    rw [Database.mem_holds]
    decide +kernel
  obtain ⟨-, hstage, -⟩ := derivation_is_first_stage (.extend _ .empty) reachable_seeded hmat rfl
    heval "path" ["a", "c"]
  obtain ⟨-, -, hbase⟩ := derivation_is_first_stage (.extend _ .empty) reachable_seeded hmat rfl
    heval "edge" ["b", "c"]
  obtain ⟨hplace, s, report', db, hs, -, hleast⟩ := hstage _ hround
  exact ⟨s, report, db, hplace, hs, hleast, hedge, hbase (Or.inl hedge)⟩

end Datalog
