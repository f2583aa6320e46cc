import Datalog.Proofs.Fixpoint.Round

/-!
# Completed strata are saturated

When the rounds of a stratum end without an error, its rules hold in what the database states, and
nothing was added that the rules do not force (`Stratum.saturated_of_evaluate`).  A stratum that
stands before another one does not read the other's predicates.  Hence later strata leave its rules
true, and a complete evaluation makes all rules true at once (`saturated_of_evaluateFrom`).

## Why one round is enough without recursion

The first round adds the consequences of what is there.  They are atoms over the predicates of the
stratum, which no body of a non-recursive stratum reads, so the consequences stay the same.
-/

namespace Datalog

/-- What a complete evaluation of some rules, with heads over the given predicates, does. -/
structure Saturated (rules : List Rule) (names : List Predicate) (db db' : Database) : Prop where
  grown : db.Grown {g | g.1 ∈ names} db'
  closed : ∀ r ∈ rules, r.HoldsIn db'.holds
  least : ∀ I : Interpretation, db.holds ⊆ I → (∀ r ∈ rules, r.HoldsIn I) → db'.holds ⊆ I

/-- A rule that does not read what is added has the consequences that it had. -/
theorem Rule.consequences_subset_of_grown {r : Rule} {names : List Predicate} {db db' : Database}
    (hgrown : db.Grown {g | g.1 ∈ names} db') (hreads : ∀ b ∈ r.body, b.predicate ∉ names) :
    r.consequences db'.holds ⊆ r.consequences db.holds := by
  refine consequences_subset_of_agree fun b hb g hg hpred => ?_
  refine (hgrown.holds_subset_union hg).resolve_right fun hnew => hreads b hb ?_
  rw [← hpred]
  exact hnew

theorem Rule.HoldsIn.of_grown {r : Rule} {names : List Predicate} {db db' : Database}
    (h : r.HoldsIn db.holds) (hgrown : db.Grown {g | g.1 ∈ names} db')
    (hreads : ∀ b ∈ r.body, b.predicate ∉ names) : r.HoldsIn db'.holds := by
  rw [holdsIn_iff] at h ⊢
  exact (consequences_subset_of_grown hgrown hreads).trans (h.trans hgrown.holds_subset)

namespace Saturated

variable {rules rules' : List Rule} {names names' : List Predicate} {db db₁ db₂ : Database}

theorem nothing (names : List Predicate) (db : Database) : Saturated [] names db db where
  grown := .refl db
  closed _ hr := absurd hr List.not_mem_nil
  least _ h _ := h

theorem append (h : Saturated rules names db db₁) (h' : Saturated rules' names' db₁ db₂)
    (hreads : ∀ r ∈ rules, ∀ b ∈ r.body, b.predicate ∉ names') :
    Saturated (rules ++ rules') (names ++ names') db db₂ where
  grown := by
    refine (h.grown.mono fun g hg => ?_).trans (h'.grown.mono fun g hg => ?_)
    · exact List.mem_append_left names' hg
    · exact List.mem_append_right names hg
  closed r hr := by
    rcases List.mem_append.mp hr with hr | hr
    · exact (h.closed r hr).of_grown h'.grown (hreads r hr)
    · exact h'.closed r hr
  least I hI hrules := by
    refine h'.least I (h.least I hI fun r hr => ?_) fun r hr => ?_
    · exact hrules r (List.mem_append_left rules' hr)
    · exact hrules r (List.mem_append_right rules hr)

end Saturated

/-! ## One stratum -/

/-- The report of a stratum before its first round. -/
def Stratum.begun (s : Stratum) : StratumReport where
  predicates := s.predicates
  recursive := s.recursive

/-- The records of the whole evaluation when a stratum is done. -/
def Progress.closed (p : Progress) : Report :=
  { p.report with strata := p.report.strata ++ [p.stratum] }

/-- What the flag of a stratum promises: without recursion, no rule reads the stratum. -/
def Stratum.Flagged (s : Stratum) : Prop :=
  s.recursive = false → ∀ r ∈ s.rules, ∀ b ∈ r.body, b.predicate ∉ s.predicates

section Rounds

variable {settings : Settings} {place limit : Nat} {s : Stratum} {p p' : Progress}
  {db db' : Database}

theorem RoundDone.grown_predicates (h : RoundDone settings place s p db p' db') :
    db.Grown {g | g.1 ∈ s.predicates} db' := by
  exact h.grown.mono fun g hg => h.consistent.supported.fst_mem_predicates hg

/-- A round that adds nothing finds all rules true. -/
theorem RoundDone.closed_of_totalTuples (h : RoundDone settings place s p db p' db')
    (hnone : p'.added.totalTuples = 0) : ∀ r ∈ s.rules, r.HoldsIn db'.holds := by
  have hempty := h.consistent.addedTo.wellFormed.totalTuples_eq_zero_iff.mp hnone
  rw [h.added, Set.sdiff_eq_empty] at hempty
  have hsame : db'.holds = db.holds := by
    rw [h.holds]
    exact Set.Subset.antisymm hempty (s.subset_advance _)
  rw [← Stratum.consequences_subset_iff, hsame]
  exact Set.subset_union_right.trans hempty

/-- Without recursion, every round leaves all rules true. -/
theorem RoundDone.closed_of_not_recursive (h : RoundDone settings place s p db p' db')
    (hreads : ∀ r ∈ s.rules, ∀ b ∈ r.body, b.predicate ∉ s.predicates) :
    ∀ r ∈ s.rules, r.HoldsIn db'.holds := by
  intro r hr
  rw [Rule.holdsIn_iff]
  have hagree := Rule.consequences_subset_of_grown h.grown_predicates (hreads r hr)
  rw [h.holds] at hagree ⊢
  exact hagree.trans fun g hg => Or.inr ⟨r, hr, hg⟩

theorem RoundDone.subset (h : RoundDone settings place s p db p' db') {I : Interpretation}
    (hI : db.holds ⊆ I) (hrules : ∀ r ∈ s.rules, r.HoldsIn I) : db'.holds ⊆ I := by
  rw [h.holds]
  exact Stratum.advance_subset hrules hI

/-- A stratum without rules is done at once; otherwise its rounds are recorded. -/
theorem Stratum.evaluate_def {σ : Type} [Storage σ] (settings : Settings) (place : Nat)
    (s : Stratum) (report : Report) (st : σ) :
    s.evaluate settings place report st =
      if s.rules.isEmpty then .ok { report with strata := report.strata ++ [s.begun] } st
      else
        (evaluateRounds settings place (s.allowance settings (Storage.contents st)) s
          (s.allowance settings (Storage.contents st)) ⟨report, s.begun, ∅⟩ >>=
            fun p => pure p.closed) st := by
  rw [Stratum.evaluate]
  by_cases hempty : s.rules.isEmpty = true
  · simp only [if_pos hempty]
    rfl
  · simp only [if_neg hempty]
    rfl

/-- After a round, the rounds end, or the limit is reached, or they go on. -/
theorem evaluateRounds_of_round {σ : Type} [Storage σ] {st st' : σ}
    (h : evaluateRound settings place s p st = .ok p' st') (n : Nat) :
    evaluateRounds settings place limit s n p st =
      if p'.added.totalTuples = 0 || !s.recursive then .ok p' st'
      else match n with
        | 0 => .error (.roundLimitExceeded place limit) st'
        | n + 1 => evaluateRounds settings place limit s n p' st' := by
  rw [evaluateRounds, bind_of_eq_ok _ (adaptExcept_eq_ok.mpr h)]
  by_cases hstop : (p'.added.totalTuples = 0 || !s.recursive) = true
  · rw [if_pos hstop, if_pos hstop]
    rfl
  · rw [if_neg hstop, if_neg hstop]
    cases n <;> rfl

/-- The rounds end only where all rules are true. -/
theorem RoundDone.closed_of_stop (h : RoundDone settings place s p db p' db') (hflag : s.Flagged)
    (hstop : (p'.added.totalTuples = 0 || !s.recursive) = true) :
    ∀ r ∈ s.rules, r.HoldsIn db'.holds := by
  rw [Bool.or_eq_true, decide_eq_true_iff, Bool.not_eq_true'] at hstop
  rcases hstop with hnone | hrec
  · exact h.closed_of_totalTuples hnone
  · exact h.closed_of_not_recursive (hflag hrec)

/-- Rounds up to the end of a stratum: all but the last have added something, and the stratum is
recursive if there are several. -/
inductive RoundsDone (settings : Settings) (place : Nat) (s : Stratum) :
    Progress → Database → Progress → Database → Prop where
  | last {p p' : Progress} {db db' : Database} : RoundDone settings place s p db p' db' →
      (p'.added.totalTuples = 0 || !s.recursive) = true → RoundsDone settings place s p db p' db'
  | step {p q p' : Progress} {db mid db' : Database} : RoundDone settings place s p db q mid →
      (q.added.totalTuples = 0 || !s.recursive) = false →
      RoundsDone settings place s q mid p' db' → RoundsDone settings place s p db p' db'

/-- **Rounds that end without an error.** -/
theorem roundsDone_of_evaluateRounds {p : Progress} {db : Database} (hp : p.Consistent s db)
    (n : Nat) (h : evaluateRounds settings place limit s n p db = .ok p' db') :
    RoundsDone settings place s p db p' db' := by
  obtain ⟨q, mid, hround, hdone⟩ := evaluateRound_eq settings place hp
  rw [evaluateRounds_of_round hround] at h
  split at h
  · next hstop =>
    obtain ⟨rfl, rfl⟩ := EStateM.Result.ok.inj h
    exact .last hdone hstop
  · next hgo =>
    cases n with
    | zero => cases h
    | succ n =>
      exact .step hdone (Bool.eq_false_of_not_eq_true hgo)
        (roundsDone_of_evaluateRounds hdone.consistent n h)

theorem RoundsDone.saturated (h : RoundsDone settings place s p db p' db') (hflag : s.Flagged) :
    Saturated s.rules s.predicates db db' := by
  induction h with
  | last hdone hstop =>
    exact ⟨hdone.grown_predicates, hdone.closed_of_stop hflag hstop, fun I => hdone.subset⟩
  | step hdone _ _ ih =>
    refine ⟨hdone.grown_predicates.trans ih.grown, ih.closed, fun I hI hrules => ?_⟩
    exact ih.least I (hdone.subset hI hrules) hrules

/-- **A stratum that is evaluated without an error is saturated.** -/
theorem Stratum.saturated_of_evaluate (hflag : s.Flagged) (hdb : db.WellFormed)
    (hs : s.SupportedBy db) {report report' : Report}
    (h : s.evaluate settings place report db = .ok report' db') :
    Saturated s.rules s.predicates db db' := by
  rw [Stratum.evaluate_def] at h
  split at h
  · next hempty =>
    obtain ⟨-, rfl⟩ := pure_eq_ok.mp h
    rw [List.isEmpty_iff.mp hempty]
    exact .nothing s.predicates db
  · obtain ⟨p', db₁, hrounds, h⟩ := bind_eq_ok.mp h
    obtain ⟨-, rfl⟩ := pure_eq_ok.mp h
    exact (roundsDone_of_evaluateRounds (.begin hdb hs report rfl) _ hrounds).saturated hflag

end Rounds

/-! ## All strata -/

/-- No rule reads the predicates of later strata, and the flags keep their promise. -/
structure Layered (strata : List Stratum) : Prop where
  flagged : ∀ s ∈ strata, s.Flagged
  sorted : strata.Pairwise fun s s' => ∀ r ∈ s.rules, ∀ b ∈ r.body, b.predicate ∉ s'.predicates

/-- The database is well formed and has the relations that the strata read and write. -/
structure Ready (strata : List Stratum) (db : Database) : Prop where
  wellFormed : db.WellFormed
  supported : ∀ s ∈ strata, s.SupportedBy db

theorem Ready.head {s : Stratum} {strata : List Stratum} {db : Database}
    (h : Ready (s :: strata) db) : s.SupportedBy db := h.supported s List.mem_cons_self

/-- Inserting tuples leaves a database ready for the strata that remain. -/
theorem Ready.tail {s : Stratum} {strata : List Stratum} {db db' : Database} {G : Interpretation}
    (h : Ready (s :: strata) db) (hgrown : db.Grown G db') : Ready strata db' where
  wellFormed := hgrown.wellFormed h.wellFormed
  supported s' hs' := (h.supported s' (List.mem_cons_of_mem s hs')).of_arity? hgrown.arity?

/-- **Strata that are evaluated without an error are saturated together.** -/
theorem saturated_of_evaluateFrom {settings : Settings} {strata : List Stratum}
    (hlayered : Layered strata) {db db' : Database} (hready : Ready strata db) {place : Nat}
    {report report' : Report}
    (h : evaluateFrom settings place strata report db = .ok report' db') :
    Saturated (strata.flatMap Stratum.rules) (strata.flatMap Stratum.predicates) db db' := by
  induction strata generalizing db place report with
  | nil =>
    obtain ⟨-, rfl⟩ := pure_eq_ok.mp h
    exact .nothing [] db
  | cons s strata ih =>
    obtain ⟨report₁, db₁, hfirst, hrest⟩ := bind_eq_ok.mp h
    obtain ⟨hreads, hsorted⟩ := List.pairwise_cons.mp hlayered.sorted
    have hsat := s.saturated_of_evaluate (hlayered.flagged s List.mem_cons_self)
      hready.wellFormed hready.head hfirst
    have hlayered' : Layered strata :=
      ⟨fun s' hs' => hlayered.flagged s' (List.mem_cons_of_mem s hs'), hsorted⟩
    rw [List.flatMap_cons, List.flatMap_cons]
    refine hsat.append (ih hlayered' (hready.tail hsat.grown) hrest) ?_
    intro r hr b hb hmem
    obtain ⟨s', hs', hlater⟩ := List.mem_flatMap.mp hmem
    exact hreads s' hs' r hr b hb hlater

end Datalog
