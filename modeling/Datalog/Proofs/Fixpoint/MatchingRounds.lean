import Datalog.Proofs.Fixpoint.Fetched
import Datalog.Proofs.Fixpoint.Termination
import Datalog.Proofs.Provenance
import Datalog.Proofs.Stratification.Matching

/-!
# Matching strata take the same rounds

Let two strata match, and let two databases agree about all atoms over the predicates that matter to
them.  Then a round adds the same atoms to both, and the databases agree again.  So if the rounds of
one stratum come to an end, those of the other do, after as many rounds, with as many new tuples in
each; and if the rules are the same but for their order, as many tuples have been fetched
(`evaluateRounds_match`).

The databases may differ elsewhere, since the programs have evaluated different strata before, and
they may list their tuples in different orders.  Without a limit they may even allow for different
numbers of rounds; but an allowance that is not used up leaves no trace.

* `Interpretation.AgreeOn`: the same atoms over some predicates.
* `Progress.Matches`, `StratumReport.Matches`: the same rounds so far, and the same rounds.
-/

namespace Datalog

/-- Two interpretations agree about the atoms over some predicates. -/
def Interpretation.AgreeOn (names : Predicate → Prop) (I J : Interpretation) : Prop :=
  ∀ g : GroundAtom, names g.1 → (g ∈ I ↔ g ∈ J)

open Interpretation (AgreeOn)

namespace Stratum

variable {s s' : Stratum} {I J : Interpretation}

theorem consequences_subset_of_agreeOn (h : AgreeOn s.Reads I J) :
    s.consequences I ⊆ s.consequences J := by
  rintro g ⟨r, hr, hg⟩
  refine ⟨r, hr, Rule.consequences_subset_of_agree (fun b hb g' hg' hpred => ?_) hg⟩
  exact (h g' (Or.inr ⟨r, hr, b, hb, hpred.symm⟩)).mp hg'

/-- Only the atoms over the predicates that the rules read matter. -/
theorem consequences_congr (h : AgreeOn s.Reads I J) : s.consequences I = s.consequences J :=
  Set.Subset.antisymm (consequences_subset_of_agreeOn h)
    (consequences_subset_of_agreeOn fun g hg => (h g hg).symm)

theorem Matches.consequences_congr (hmatch : s.Matches s') (h : AgreeOn s.Reads I J) :
    s.consequences I = s'.consequences J :=
  (Stratum.consequences_congr h).trans (hmatch.consequences_eq J)

theorem Matches.agreeOn_advance (hmatch : s.Matches s') (h : AgreeOn s.Reads I J) :
    AgreeOn s.Reads (s.advance I) (s'.advance J) := by
  intro g hg
  rw [advance, advance, hmatch.consequences_congr h]
  exact or_congr_left (h g hg)

/-- Matching strata go through the same stages. -/
theorem Matches.agreeOn_stage (hmatch : s.Matches s') (h : AgreeOn s.Reads I J) (n : Nat) :
    AgreeOn s.Reads (s.stage I n) (s'.stage J n) := by
  induction n with
  | zero => exact h
  | succ n ih =>
    rw [stage_succ, stage_succ]
    exact hmatch.agreeOn_advance ih

end Stratum

/-! ## One round -/

/-- Two strata have taken the same rounds so far, and the databases agree about what matters. -/
structure Progress.Matches (s s' : Stratum) (p q : Progress) (db e : Database) : Prop where
  rounds : p.stratum.rounds = q.stratum.rounds
  newPerRound : p.stratum.newPerRound = q.stratum.newPerRound
  tuplesScanned : s.rules.Perm s'.rules → p.stratum.tuplesScanned = q.stratum.tuplesScanned
  added : p.added.holds = q.added.holds
  agree : AgreeOn s.Reads db.holds e.holds

section Rounds

variable {settings : Settings} {place place' limit limit' : Nat} {s s' : Stratum}
  {p q p' q' : Progress} {db e db' e' : Database}

/-- Both rounds add the same atoms. -/
theorem RoundDone.added_eq (hmatch : s.Matches s') (hp : RoundDone settings place s p db p' db')
    (hq : RoundDone settings place' s' q e q' e') (h : AgreeOn s.Reads db.holds e.holds) :
    p'.added.holds = q'.added.holds := by
  rw [hp.added, hq.added]
  ext g
  rw [Stratum.advance, Stratum.advance, Set.union_sdiff_left, Set.union_sdiff_left,
    ← hmatch.consequences_congr h, Set.mem_sdiff, Set.mem_sdiff]
  refine and_congr_right fun hg => not_congr (h g (Or.inl ?_))
  exact hp.consistent.supported.fst_mem_predicates hg

/-- Both rounds fetch the same number of tuples, if they join the same rules. -/
theorem Progress.Matches.fetched_eq (hmatch : s.Matches s') (hp : p.Consistent s db)
    (hq : q.Consistent s' e) (h : Progress.Matches s s' p q db e) (hrules : s.rules.Perm s'.rules)
    (round : Nat) : total (s.rules.map (s.fetchedFor settings round p.added db)) =
      total (s'.rules.map (s'.fetchedFor settings round q.added e)) := by
  have hrule : ∀ r ∈ s.rules, s.fetchedFor settings round p.added db r =
      s'.fetchedFor settings round q.added e r := by
    intro r hr
    refine Stratum.fetchedFor_congr settings hmatch.predicates round ?_ ?_
    · intro b hb
      exact hp.wellFormed.sameTuples hq.wellFormed fun t =>
        h.agree (b.predicate, t) (Or.inr ⟨r, hr, b, hb, rfl⟩)
    · intro b _
      refine hp.addedTo.wellFormed.sameTuples hq.addedTo.wellFormed fun t => ?_
      rw [h.added]
  rw [List.map_congr_left hrule]
  exact total_perm (hrules.map _)

/-- **A round keeps the match.** -/
theorem Progress.Matches.round (hmatch : s.Matches s') (hp : p.Consistent s db)
    (hq : q.Consistent s' e) (h : Progress.Matches s s' p q db e)
    (hround : evaluateRound settings place s p db = .ok p' db')
    (hround' : evaluateRound settings place' s' q e = .ok q' e')
    (hdone : RoundDone settings place s p db p' db')
    (hdone' : RoundDone settings place' s' q e q' e') :
    Progress.Matches s s' p' q' db' e' ∧ p'.added.totalTuples = q'.added.totalTuples := by
  have hadded := hdone.added_eq hmatch hdone' h.agree
  have htotal := hdone.consistent.addedTo.wellFormed.totalTuples_congr
    hdone'.consistent.addedTo.wellFormed hadded
  refine ⟨⟨?_, ?_, fun hrules => ?_, hadded, ?_⟩, htotal⟩
  · rw [hdone.rounds, hdone'.rounds, h.rounds]
  · rw [hdone.newPerRound, hdone'.newPerRound, h.newPerRound, htotal]
  · rw [tuplesScanned_of_evaluateRound hp hround, tuplesScanned_of_evaluateRound hq hround',
      h.tuplesScanned hrules, h.rounds, h.fetched_eq hmatch hp hq hrules]
  · rw [hdone.holds, hdone'.holds]
    exact hmatch.agreeOn_advance h.agree

/-! ## All rounds -/

/-- **Matching strata take the same rounds.**  If the rounds of one stratum come to an end, so do
those of the other, provided they are allowed as many; and whatever they are allowed, if they come
to an end, they match. -/
theorem evaluateRounds_match (hmatch : s.Matches s') {p q : Progress} {db e : Database}
    (hp : p.Consistent s db) (hq : q.Consistent s' e) (h : Progress.Matches s s' p q db e)
    (n m : Nat) (hrun : evaluateRounds settings place limit s n p db = .ok p' db') :
    (n ≤ m → ∃ q' e', evaluateRounds settings place' limit' s' m q e = .ok q' e') ∧
      ∀ q' e', evaluateRounds settings place' limit' s' m q e = .ok q' e' →
        Progress.Matches s s' p' q' db' e' := by
  obtain ⟨p₁, db₁, hround, hdone⟩ := evaluateRound_eq settings place hp
  obtain ⟨q₁, e₁, hround', hdone'⟩ := evaluateRound_eq settings place' hq
  obtain ⟨h₁, htotal⟩ := h.round hmatch hp hq hround hround' hdone hdone'
  rw [evaluateRounds_of_round hround, htotal, hmatch.recursive] at hrun
  rw [evaluateRounds_of_round hround']
  by_cases hstop : (q₁.added.totalTuples = 0 || !s'.recursive) = true
  · rw [if_pos hstop] at hrun ⊢
    obtain ⟨rfl, rfl⟩ := EStateM.Result.ok.inj hrun
    refine ⟨fun _ => ⟨q₁, e₁, rfl⟩, fun q' e' hrun' => ?_⟩
    obtain ⟨rfl, rfl⟩ := EStateM.Result.ok.inj hrun'
    exact h₁
  · rw [if_neg hstop] at hrun ⊢
    cases n with
    | zero => cases hrun
    | succ n =>
      cases m with
      | zero =>
        -- The other rounds are cut short here, which says nothing about how they would go on.
        refine ⟨fun hle => absurd hle (Nat.not_succ_le_zero n), fun _ _ hrun' => ?_⟩
        cases hrun'
      | succ m =>
        obtain ⟨hends, hsame⟩ :=
          evaluateRounds_match hmatch hdone.consistent hdone'.consistent h₁ n m hrun
        exact ⟨fun hle => hends (Nat.le_of_succ_le_succ hle), hsame⟩
termination_by n

end Rounds

/-! ## One stratum -/

/-- The predicates and the flag of a stratum, as its report gives them. -/
def StratumReport.signature (x : StratumReport) : Finset Predicate × Bool :=
  (x.predicates.toFinset, x.recursive)

/-- As many rounds, with as many new tuples in each; and as many tuples fetched, provided that no
body has changed. -/
structure StratumReport.Matches (sameBodies : Prop) (x y : StratumReport) : Prop where
  rounds : x.rounds = y.rounds
  newPerRound : x.newPerRound = y.newPerRound
  tuplesScanned : sameBodies → x.tuplesScanned = y.tuplesScanned

section Rounds

variable {settings : Settings} {place place' : Nat} {s s' : Stratum} {p p' : Progress}
  {db e db' e' : Database}

/-- Rounds change neither the records of other strata nor the signature of their own. -/
theorem RoundsDone.signature_eq (h : RoundsDone settings place s p db p' db') :
    p'.stratum.signature = p.stratum.signature ∧ p'.report.strata = p.report.strata := by
  induction h with
  | last hdone _ =>
    exact ⟨by rw [StratumReport.signature, hdone.predicates, hdone.recursive]; rfl, hdone.strata⟩
  | step hdone _ _ ih =>
    refine ⟨ih.1.trans ?_, ih.2.trans hdone.strata⟩
    rw [StratumReport.signature, hdone.predicates, hdone.recursive]
    rfl

/-- A stratum that is evaluated without an error adds its report. -/
theorem Stratum.strata_of_evaluate (hdb : db.WellFormed) (hs : s.SupportedBy db)
    {report report' : Report} (h : s.evaluate settings place report db = .ok report' db') :
    ∃ x, report'.strata = report.strata ++ [x] ∧ x.signature = s.signature := by
  rw [Stratum.evaluate_def] at h
  split at h
  · obtain ⟨rfl, -⟩ := EStateM.Result.ok.inj h
    exact ⟨s.begun, rfl, rfl⟩
  · obtain ⟨q, mid, hrounds, h⟩ := bind_eq_ok.mp h
    obtain ⟨rfl, -⟩ := pure_eq_ok.mp h
    obtain ⟨hsignature, hstrata⟩ :=
      (roundsDone_of_evaluateRounds (.begin hdb hs report rfl) _ hrounds).signature_eq
    exact ⟨q.stratum, congrArg (· ++ [q.stratum]) hstrata, hsignature⟩

theorem Progress.Matches.begin (h : AgreeOn s.Reads db.holds e.holds) (report report' : Report) :
    Progress.Matches s s' ⟨report, s.begun, ∅⟩ ⟨report', s'.begun, ∅⟩ db e :=
  ⟨rfl, rfl, fun _ => rfl, rfl, h⟩

variable (hmatch : s.Matches s') (hdb : db.WellFormed) (he : e.WellFormed) (hs : s.SupportedBy db)
  (hs' : s'.SupportedBy e) (h : AgreeOn s.Reads db.holds e.holds) {report report' report₁ : Report}
  (hrun : s.evaluate settings place report db = .ok report₁ db')

include hmatch hdb he hs hs' h hrun

/-- **If a stratum can be evaluated, so can a matching one.** -/
theorem Stratum.exists_evaluate_of_matches :
    ∃ report₂ e', s'.evaluate settings place' report' e = .ok report₂ e' := by
  cases hmax : settings.maxRounds with
  | none => exact s'.exists_evaluate hmax he hs' report'
  | some limit =>
    have hallowance : ∀ (t : Stratum) (d : Database), t.allowance settings d = limit := by
      intro t d
      rw [allowance, hmax]
      rfl
    rw [Stratum.evaluate_def, hallowance, hmatch.isEmpty_rules] at hrun
    rw [Stratum.evaluate_def, hallowance]
    split at hrun
    · next hempty => exact ⟨_, _, if_pos hempty⟩
    · next hrules =>
      obtain ⟨q, mid, hrounds, -⟩ := bind_eq_ok.mp hrun
      obtain ⟨hends, -⟩ := evaluateRounds_match hmatch (.begin hdb hs report rfl)
        (.begin he hs' report' rfl) (.begin h report report') limit limit hrounds
      obtain ⟨q', e', hrounds'⟩ := hends (le_refl limit)
      rw [if_neg hrules, bind_of_eq_ok _ hrounds']
      exact ⟨_, _, rfl⟩

/-- **The reports of matching strata match.** -/
theorem Stratum.reports_match {report₂ : Report}
    (hrun' : s'.evaluate settings place' report' e = .ok report₂ e') :
    ∃ x y, report₁.strata = report.strata ++ [x] ∧ report₂.strata = report'.strata ++ [y] ∧
      x.Matches (s.rules.Perm s'.rules) y := by
  rw [Stratum.evaluate_def, hmatch.isEmpty_rules] at hrun
  rw [Stratum.evaluate_def] at hrun'
  split at hrun
  · next hempty =>
    rw [if_pos hempty] at hrun'
    obtain ⟨rfl, -⟩ := EStateM.Result.ok.inj hrun
    obtain ⟨rfl, -⟩ := EStateM.Result.ok.inj hrun'
    exact ⟨s.begun, s'.begun, rfl, rfl, rfl, rfl, fun _ => rfl⟩
  · next hrules =>
    rw [if_neg hrules] at hrun'
    obtain ⟨p, mid, hrounds, hrun⟩ := bind_eq_ok.mp hrun
    obtain ⟨rfl, -⟩ := pure_eq_ok.mp hrun
    obtain ⟨q, mid', hrounds', hrun'⟩ := bind_eq_ok.mp hrun'
    obtain ⟨rfl, -⟩ := pure_eq_ok.mp hrun'
    have hp : Progress.Consistent s ⟨report, s.begun, ∅⟩ db := .begin hdb hs report rfl
    have hq : Progress.Consistent s' ⟨report', s'.begun, ∅⟩ e := .begin he hs' report' rfl
    obtain ⟨-, hsame⟩ := evaluateRounds_match hmatch hp hq (.begin h report report') _ _ hrounds
    have hends := hsame q mid' hrounds'
    obtain ⟨-, hstrata⟩ := (roundsDone_of_evaluateRounds hp _ hrounds).signature_eq
    obtain ⟨-, hstrata'⟩ := (roundsDone_of_evaluateRounds hq _ hrounds').signature_eq
    exact ⟨p.stratum, q.stratum, congrArg (· ++ [p.stratum]) hstrata,
      congrArg (· ++ [q.stratum]) hstrata', hends.rounds, hends.newPerRound, hends.tuplesScanned⟩

end Rounds

end Datalog
