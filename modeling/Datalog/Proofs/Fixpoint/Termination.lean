import Datalog.Proofs.Fixpoint.Refusals
import Mathlib.Data.Set.Card

/-!
# Evaluation without a limit ends

A round adds atoms over the predicates that the rules of its stratum define, and the values of these
atoms were there before or stand in the heads of the rules.  So for fixed constants there is a fixed
list of *candidates*, and an evaluation without a limit is one whose allowance is the length of this
list (`Stratum.length_candidates`).

What decreases is the number of candidates that the database lacks: a round that adds anything adds
a candidate (`RoundDone.lacking_lt`).  Hence an allowance of that many rounds is never used up
(`exists_evaluateRounds`), and neither is the one of an evaluation without a limit
(`exists_evaluateFrom`).
-/

namespace Datalog

/-! ## Candidates -/

/-- The tuples of the given length over some constants. -/
def tuplesOver (cs : List Constant) : Nat → List Tuple
  | 0 => [[]]
  | n + 1 => cs.flatMap fun c => (tuplesOver cs n).map (c :: ·)

theorem mem_tuplesOver {cs : List Constant} {n : Nat} {t : Tuple} :
    t ∈ tuplesOver cs n ↔ t.length = n ∧ ∀ c ∈ t, c ∈ cs := by
  induction n generalizing t with
  | zero => cases t <;> simp [tuplesOver]
  | succ n ih =>
    rw [tuplesOver]
    cases t with
    | nil => simp
    | cons c t =>
      simp only [List.mem_flatMap, List.mem_map, List.cons.injEq, List.length_cons,
        Nat.add_right_cancel_iff, List.forall_mem_cons]
      constructor
      · rintro ⟨c', hc', t', ht', rfl, rfl⟩
        obtain ⟨hlength, hall⟩ := ih.mp ht'
        exact ⟨hlength, hc', hall⟩
      · rintro ⟨hlength, hc, hall⟩
        exact ⟨c, hc, t, ih.mpr ⟨hlength, hall⟩, rfl, rfl⟩

theorem length_tuplesOver (cs : List Constant) (n : Nat) :
    (tuplesOver cs n).length = Nat.pow cs.length n := by
  induction n with
  | zero => rfl
  | succ n ih =>
    rw [tuplesOver, List.length_flatMap]
    simp only [List.length_map, ih, List.map_const', List.sum_replicate_nat]
    exact (Nat.pow_succ').symm

/-- All values of some atoms are among the given constants. -/
def Interpretation.Over (cs : List Constant) (I : Interpretation) : Prop :=
  ∀ g ∈ I, ∀ c ∈ g.2, c ∈ cs

namespace Stratum

/-- The atoms over the predicates that the rules define whose values are among some constants. -/
def candidates (s : Stratum) (cs : List Constant) : List GroundAtom :=
  s.definedRelations.flatMap fun p => (tuplesOver cs p.2).map fun t => (p.1, t)

/-- The constants of the heads are among the given ones. -/
def HeadsOver (s : Stratum) (cs : List Constant) : Prop :=
  ∀ r ∈ s.rules, ∀ c ∈ r.headConstants, c ∈ cs

theorem length_candidates (s : Stratum) (cs : List Constant) :
    (s.candidates cs).length =
      total (s.definedRelations.map fun p => Nat.pow cs.length p.2) := by
  unfold candidates
  induction s.definedRelations with
  | nil => rfl
  | cons p ps ih =>
    rw [List.flatMap_cons, List.length_append, List.length_map, length_tuplesOver, ih]
    rfl

theorem over_of_mem_candidates {s : Stratum} {cs : List Constant} {g : GroundAtom}
    (h : g ∈ s.candidates cs) : ∀ c ∈ g.2, c ∈ cs := by
  obtain ⟨p, -, hg⟩ := List.mem_flatMap.mp h
  obtain ⟨t, ht, rfl⟩ := List.mem_map.mp hg
  exact (mem_tuplesOver.mp ht).2

/-- No rule invents a value: a variable of its head stands in its body. -/
theorem consequences_subset_candidates {s : Stratum} {db : Database} (hs : s.SupportedBy db)
    {cs : List Constant} (hheads : s.HeadsOver cs) {I : Interpretation} (hI : I.Over cs) :
    s.consequences I ⊆ {g | g ∈ s.candidates cs} := by
  rintro g ⟨r, hr, v, hbody, rfl⟩
  refine List.mem_flatMap.mpr ⟨(r.head.predicate, r.head.arity), ?_, ?_⟩
  · exact List.mem_eraseDups.mpr (List.mem_map.mpr ⟨r, hr, rfl⟩)
  · refine List.mem_map.mpr ⟨(r.head.ground v).2, mem_tuplesOver.mpr ⟨?_, ?_⟩, rfl⟩
    · exact r.head.length_ground v
    · intro c hc
      obtain ⟨u, hu, rfl⟩ := List.mem_map.mp hc
      cases u with
      | const c => exact hheads r hr c (List.mem_filterMap.mpr ⟨_, hu, rfl⟩)
      | var x =>
        have hx := hs.rangeRestricted r hr x (Atom.mem_vars.mpr hu)
        obtain ⟨b, hb, hxb⟩ := List.mem_flatMap.mp hx
        exact hI _ (hbody b hb) (v x) (List.mem_map.mpr ⟨_, Atom.mem_vars.mp hxb, rfl⟩)

/-- The number of candidates that a database lacks. -/
noncomputable def lacking (s : Stratum) (cs : List Constant) (db : Database) : Nat :=
  ({g | g ∈ s.candidates cs} \ db.holds).ncard

theorem lacking_le (s : Stratum) (cs : List Constant) (db : Database) :
    s.lacking cs db ≤ (s.candidates cs).length := by
  have hfinite : {g | g ∈ s.candidates cs}.Finite := List.finite_toSet _
  refine (Set.ncard_le_ncard Set.sdiff_subset hfinite).trans ?_
  rw [← List.coe_toFinset, Set.ncard_coe_finset]
  exact List.toFinset_card_le _

end Stratum

/-! ## One stratum -/

section Rounds

variable {settings : Settings} {place : Nat} {s : Stratum} {cs : List Constant} {p p' : Progress}
  {db db' : Database}

theorem RoundDone.over (h : RoundDone settings place s p db p' db') (hheads : s.HeadsOver cs)
    (hdb : db.holds.Over cs) : db'.holds.Over cs := by
  intro g hg
  rw [h.holds] at hg
  rcases hg with hold | hnew
  · exact hdb g hold
  · exact Stratum.over_of_mem_candidates
      (Stratum.consequences_subset_candidates h.consistent.supported hheads hdb hnew)

/-- A round that adds anything adds a candidate. -/
theorem RoundDone.lacking_lt (h : RoundDone settings place s p db p' db')
    (hheads : s.HeadsOver cs) (hdb : db.holds.Over cs) (hsome : p'.added.totalTuples ≠ 0) :
    s.lacking cs db' < s.lacking cs db := by
  have hnonempty : p'.added.holds.Nonempty := by
    rw [Set.nonempty_iff_ne_empty]
    exact fun hempty => hsome (h.consistent.addedTo.wellFormed.totalTuples_eq_zero_iff.mpr hempty)
  obtain ⟨g, hg⟩ := hnonempty
  rw [h.added] at hg
  have hcandidate : g ∈ s.candidates cs :=
    Stratum.consequences_subset_candidates h.consistent.supported hheads hdb
      (hg.1.resolve_left hg.2)
  have hthere : g ∈ db'.holds := by
    rw [h.holds]
    exact hg.1
  refine Set.ncard_lt_ncard ?_ ((List.finite_toSet _).subset Set.sdiff_subset)
  refine (Set.ssubset_iff_of_subset ?_).mpr ⟨g, ⟨hcandidate, hg.2⟩, fun hlacks => hlacks.2 hthere⟩
  exact Set.sdiff_subset_sdiff_right h.grown.holds_subset

/-- **An allowance for all candidates that are lacking is not used up.** -/
theorem exists_evaluateRounds {limit : Nat} {p : Progress} {db : Database}
    (hp : p.Consistent s db) (hheads : s.HeadsOver cs) (hdb : db.holds.Over cs) (n : Nat)
    (hn : s.lacking cs db ≤ n) :
    ∃ p' db', evaluateRounds settings place limit s n p db = .ok p' db' := by
  obtain ⟨q, mid, hround, hdone⟩ := evaluateRound_eq settings place hp
  rw [evaluateRounds_of_round hround]
  by_cases hstop : (q.added.totalTuples = 0 || !s.recursive) = true
  · rw [if_pos hstop]
    exact ⟨q, mid, rfl⟩
  · rw [if_neg hstop]
    rw [Bool.or_eq_true, decide_eq_true_iff, not_or] at hstop
    have hless := hdone.lacking_lt hheads hdb hstop.1
    cases n with
    | zero => omega
    | succ n =>
      exact exists_evaluateRounds hdone.consistent hheads (hdone.over hheads hdb) n (by omega)

/-- The constants that bound the allowance of a stratum. -/
theorem Stratum.over_domain (s : Stratum) (hdb : db.WellFormed) :
    s.HeadsOver (s.domain db) ∧ db.holds.Over (s.domain db) := by
  constructor
  · intro r hr c hc
    exact List.mem_eraseDups.mpr (List.mem_append_right _ (List.mem_flatMap.mpr ⟨r, hr, hc⟩))
  · intro g hg c hc
    exact List.mem_eraseDups.mpr (List.mem_append_left _ (hdb.mem_constants.mpr ⟨g, hg, hc⟩))

theorem Stratum.exists_evaluate (hmax : settings.maxRounds = none) (hdb : db.WellFormed)
    (hs : s.SupportedBy db) (report : Report) :
    ∃ report' db', s.evaluate settings place report db = .ok report' db' := by
  rw [Stratum.evaluate_def]
  split
  · exact ⟨_, _, rfl⟩
  · obtain ⟨hheads, hover⟩ := s.over_domain hdb
    have hallowance : s.lacking (s.domain db) db ≤ s.allowance settings db := by
      refine (s.lacking_le _ _).trans_eq ?_
      rw [s.length_candidates, allowance, hmax]
      rfl
    have hbegin : Progress.Consistent s ⟨report, s.begun, ∅⟩ db := .begin hdb hs report rfl
    obtain ⟨q, db', hrounds⟩ := exists_evaluateRounds hbegin hheads hover _ hallowance
    refine ⟨q.closed, db', ?_⟩
    rw [Storage.contents_database, bind_of_eq_ok _ hrounds]
    rfl

end Rounds

/-- **Without a limit, an evaluation succeeds.** -/
theorem exists_evaluateFrom {settings : Settings} (hmax : settings.maxRounds = none)
    {strata : List Stratum} {place : Nat} {report : Report} {db : Database}
    (hready : Ready strata db) :
    ∃ report' db', evaluateFrom settings place strata report db = .ok report' db' := by
  induction strata generalizing place report db with
  | nil => exact ⟨report, db, rfl⟩
  | cons s strata ih =>
    obtain ⟨report₁, db₁, hfirst⟩ : ∃ report₁ db₁,
        s.evaluate settings place report db = .ok report₁ db₁ :=
      s.exists_evaluate hmax hready.wellFormed hready.head report
    rw [evaluateFrom, bind_of_eq_ok _ hfirst]
    exact ih (hready.tail (Stratum.grown_of_evaluate hready.wellFormed hready.head hfirst))

end Datalog
