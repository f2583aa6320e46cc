import Datalog.Proofs.Fixpoint.Commit

/-!
# A round applies the operator once

On a database, a round of a stratum cannot fail, and it adds to the database exactly what one
application of the rules adds (`evaluateRound_eq`).  It does so with either strategy, in the first
round and in the later ones.  The later rounds rely on what the previous one has left behind, which
is the invariant `Progress.Consistent`: the consequences of what was there *before* the latest
tuples are there already.
-/

namespace Datalog

theorem Report.derivation?_recordDerivations (report : Report) (moment : Derivation)
    (added : Database) (name : Predicate) (t : Tuple) :
    (report.recordDerivations moment added).derivation? name t =
      (report.derivation? name t).or (if (name, t) ∈ added.listing then some moment else none) := by
  refine (Table.find?_foldl_insertNew added.listing moment report.derivations (name, t)).trans ?_
  congr 1
  by_cases hmem : (name, t) ∈ added.listing
  · rw [if_pos hmem, if_pos hmem]
  · rw [if_neg hmem, if_neg hmem]

namespace Progress

/-- What the rounds of a stratum rely on. -/
structure Consistent (s : Stratum) (p : Progress) (db : Database) : Prop where
  wellFormed : db.WellFormed
  supported : s.SupportedBy db
  addedTo : p.added.AddedTo db
  subset : p.added.holds ⊆ db.holds
  isLocal : ∀ g ∈ p.added.holds, g.1 ∈ s.predicates
  closed : p.stratum.rounds ≠ 0 → s.consequences (db.holds \ p.added.holds) ⊆ db.holds

/-- Before the first round. -/
theorem Consistent.begin {s : Stratum} {db : Database} (hdb : db.WellFormed)
    (hs : s.SupportedBy db) (report : Report) {begun : StratumReport} (hbegun : begun.rounds = 0) :
    Consistent s { report := report, stratum := begun } db where
  wellFormed := hdb
  supported := hs
  addedTo := ⟨.empty, fun name k hk => by cases hk⟩
  subset := by
    show (∅ : Database).holds ⊆ db.holds
    rw [Database.holds_empty]
    exact Set.empty_subset _
  isLocal g hg := by
    have hg' : g ∈ (∅ : Database).holds := hg
    rw [Database.holds_empty] at hg'
    exact absurd hg' (Set.notMem_empty g)
  closed h := absurd hbegun h

end Progress

/-- The records after a round with the given harvest and the given new tuples. -/
def Progress.after (settings : Settings) (place : Nat) (p : Progress) (h : Harvest)
    (added : Database) : Progress :=
  let report :=
    if settings.collectTimings then
      { p.report with timedRules := h.evaluated.foldl arrive p.report.timedRules }
    else p.report
  { report :=
      if settings.trackProvenance then
        report.recordDerivations ⟨place, p.stratum.rounds + 1⟩ added
      else report
    stratum :=
      { p.stratum with
        rounds := p.stratum.rounds + 1
        newPerRound := p.stratum.newPerRound ++ [added.totalTuples]
        tuplesScanned := p.stratum.tuplesScanned + h.fetched }
    added := added }

theorem evaluateRound_def {σ : Type} [Storage σ] (settings : Settings) (place : Nat) (s : Stratum)
    (p : Progress) :
    evaluateRound (σ := σ) settings place s p =
      harvest settings s (p.stratum.rounds + 1) p.added s.rules {} >>= fun h =>
        commit h.candidates.entries ∅ >>= fun added => pure (p.after settings place h added) := rfl

/-- What a round does to a database and to the records, whatever its joins range over. -/
structure RoundDone (settings : Settings) (place : Nat) (s : Stratum) (p : Progress)
    (db : Database) (p' : Progress) (db' : Database) : Prop where
  grown : db.Grown (s.consequences db.holds) db'
  holds : db'.holds = s.advance db.holds
  added : p'.added.holds = s.advance db.holds \ db.holds
  consistent : p'.Consistent s db'
  rounds : p'.stratum.rounds = p.stratum.rounds + 1
  newPerRound : p'.stratum.newPerRound = p.stratum.newPerRound ++ [p'.added.totalTuples]
  predicates : p'.stratum.predicates = p.stratum.predicates
  recursive : p'.stratum.recursive = p.stratum.recursive
  strata : p'.report.strata = p.report.strata
  derivations : p'.report.derivations =
    if settings.trackProvenance then
      (p.report.recordDerivations ⟨place, p.stratum.rounds + 1⟩ p'.added).derivations
    else p.report.derivations

/-- With provenance, a round notes its moment for the tuples that it adds. -/
theorem RoundDone.derivation? {settings : Settings} {place : Nat} {s : Stratum} {p p' : Progress}
    {db db' : Database} (h : RoundDone settings place s p db p' db') (name : Predicate)
    (t : Tuple) :
    p'.report.derivation? name t = (p.report.derivation? name t).or
      (if settings.trackProvenance = true ∧ (name, t) ∈ p'.added.listing then
        some ⟨place, p.stratum.rounds + 1⟩ else none) := by
  have hrecorded := p.report.derivation?_recordDerivations ⟨place, p.stratum.rounds + 1⟩ p'.added
    name t
  rw [Report.derivation?, h.derivations]
  cases settings.trackProvenance with
  | true =>
    simp only [if_true, true_and]
    exact hrecorded
  | false => simp [Report.derivation?]

/-- What the joins of a round find, all rules together, is between what is missing and what is
derivable. -/
theorem Progress.Consistent.collected_bounds {s : Stratum} {p : Progress} {db : Database}
    (h : p.Consistent s db) (settings : Settings) {A : Interpretation}
    (hA : ∀ g, g ∈ A ↔ ∃ r ∈ s.rules,
      g ∈ s.joined settings (p.stratum.rounds + 1) p.added.holds db.holds r) :
    A ⊆ s.consequences db.holds ∧ s.consequences db.holds ⊆ db.holds ∪ A := by
  constructor
  · intro g hg
    obtain ⟨r, hr, hjoined⟩ := (hA g).mp hg
    exact ⟨r, hr, s.joined_subset_consequences settings _ h.subset r hjoined⟩
  · rintro g ⟨r, hr, hg⟩
    by_cases hround : p.stratum.rounds = 0
    · refine Or.inr ((hA g).mpr ⟨r, hr, ?_⟩)
      unfold Stratum.joined
      rw [if_pos (by omega)]
      exact hg
    · rcases s.consequences_subset_joined settings (p.stratum.rounds + 1) h.isLocal r hg with
        hold | hnew
      · exact Or.inl (h.closed hround ⟨r, hr, hold⟩)
      · exact Or.inr ((hA g).mpr ⟨r, hr, hnew⟩)

/-- The joins of a round succeed, what they collect is within these bounds, and it is known how many
tuples they fetch. -/
theorem Progress.Consistent.exists_harvest {s : Stratum} {p : Progress} {db : Database}
    (h : p.Consistent s db) (settings : Settings) :
    ∃ hv, harvest settings s (p.stratum.rounds + 1) p.added s.rules {} db = .ok hv db ∧
      hv.candidates.keys.Nodup ∧
      hv.fetched = total (s.rules.map (s.fetchedFor settings (p.stratum.rounds + 1) p.added db)) ∧
      hv.collected ⊆ s.consequences db.holds ∧
      s.consequences db.holds ⊆ db.holds ∪ hv.collected := by
  obtain ⟨hv, hharvest, hnodup, hfetched, hcollected⟩ := harvest_eq settings h.wellFormed
    h.supported h.addedTo (p.stratum.rounds + 1) (fun _ hr => hr) (h := {}) List.nodup_nil
  have hstart : ∀ g, g ∉ Harvest.collected {} := by
    rintro g ⟨ts, hts, -⟩
    cases hts
  obtain ⟨hsound, hcomplete⟩ := h.collected_bounds settings (A := hv.collected) fun g => by
    rw [hcollected g, or_iff_right (hstart g)]
  exact ⟨hv, hharvest, hnodup, hfetched.trans (Nat.zero_add _), hsound, hcomplete⟩

/-- Committing a harvest within these bounds is one application of the rules. -/
theorem Progress.Consistent.roundDone {settings : Settings} {place : Nat} {s : Stratum}
    {p : Progress} {db db' added' : Database} {hv : Harvest} (h : p.Consistent s db)
    (hsound : hv.collected ⊆ s.consequences db.holds)
    (hcomplete : s.consequences db.holds ⊆ db.holds ∪ hv.collected)
    (hcommitted : Committed hv.collected db ∅ db' added') :
    RoundDone settings place s p db (p.after settings place hv added') db' := by
  have hholds : db'.holds = s.advance db.holds := by
    rw [hcommitted.holds]
    exact Set.Subset.antisymm (Set.union_subset_union_right _ hsound)
      (Set.union_subset Set.subset_union_left hcomplete)
  have hadded : added'.holds = s.advance db.holds \ db.holds := by
    rw [hcommitted.holds_added, Database.holds_empty, Set.empty_union, ← hholds, hcommitted.holds,
      Set.union_sdiff_left]
  have hgrown : db.Grown (s.consequences db.holds) db' := hcommitted.grown.mono hsound
  have hclosed : s.consequences (db'.holds \ added'.holds) ⊆ db'.holds := by
    rw [hadded, hholds, Set.sdiff_sdiff_cancel_left (s.subset_advance _)]
    exact Set.subset_union_right
  have hlocal : ∀ g ∈ added'.holds, g.1 ∈ s.predicates := by
    intro g hg
    rw [hadded] at hg
    exact h.supported.fst_mem_predicates (hg.1.resolve_left hg.2)
  refine ⟨hgrown, hholds, hadded, ?_, rfl, rfl, rfl, rfl, ?_, ?_⟩
  · refine ⟨hgrown.wellFormed h.wellFormed, h.supported.of_arity? hgrown.arity?,
      hcommitted.addedTo, ?_, hlocal, fun _ => hclosed⟩
    show added'.holds ⊆ db'.holds
    rw [hadded, hholds]
    exact Set.sdiff_subset
  · show (if _ then _ else _ : Report).strata = _
    cases settings.trackProvenance <;> cases settings.collectTimings <;> rfl
  · show (if _ then _ else _ : Report).derivations = _
    cases settings.trackProvenance <;> cases settings.collectTimings <;> rfl

/-- **A round applies the rules of its stratum once.** -/
theorem evaluateRound_eq (settings : Settings) (place : Nat) {s : Stratum} {p : Progress}
    {db : Database} (h : p.Consistent s db) :
    ∃ p' db', evaluateRound settings place s p db = .ok p' db' ∧
      RoundDone settings place s p db p' db' := by
  obtain ⟨hv, hharvest, hnodup, -, hsound, hcomplete⟩ := h.exists_harvest settings
  have harity : ∀ g ∈ hv.collected, db.arity? g.1 = some g.2.length := by
    intro g hg
    obtain ⟨r, hr, v, -, rfl⟩ := hsound hg
    rw [Atom.length_ground]
    exact h.supported.head r hr
  obtain ⟨added', db', hcommit, hcommitted⟩ := Harvest.commit_eq hnodup harity
  refine ⟨p.after settings place hv added', db', ?_, h.roundDone hsound hcomplete hcommitted⟩
  rw [evaluateRound_def, bind_of_eq_ok _ hharvest, bind_of_eq_ok _ hcommit]
  rfl

/-- A round counts the tuples that its joins fetch. -/
theorem tuplesScanned_of_evaluateRound {settings : Settings} {place : Nat} {s : Stratum}
    {p p' : Progress} {db db' : Database} (h : p.Consistent s db)
    (hround : evaluateRound settings place s p db = .ok p' db') :
    p'.stratum.tuplesScanned = p.stratum.tuplesScanned +
      total (s.rules.map (s.fetchedFor settings (p.stratum.rounds + 1) p.added db)) := by
  obtain ⟨hv, hharvest, -, hfetched, -⟩ := h.exists_harvest settings
  rw [evaluateRound_def, bind_of_eq_ok _ hharvest] at hround
  obtain ⟨added, mid, -, hround⟩ := bind_eq_ok.mp hround
  obtain ⟨rfl, -⟩ := pure_eq_ok.mp hround
  rw [← hfetched]
  rfl

end Datalog
