import Datalog.Fixpoint
import Datalog.Proofs.Interpretation
import Datalog.Proofs.Join

/-!
# The operator of a stratum

The rules of a stratum turn an interpretation into the heads of all instances whose bodies it makes
true.  One application of `Stratum.advance` adds these heads; a round of evaluation is meant to do
exactly that to the database, whichever of its rules it joins and with what.

## Why the joins of a round suffice

Let `I` be what the database states before a round and `Δ` what the previous round added.  The
consequences of `I \ Δ` are in `I` already.  A valuation that makes a body true in `I` either makes
it true in `I \ Δ`, and then there is nothing to add, or it puts some body atom into `Δ`; that atom
is local to the stratum, so the rule is recursive and the join with this atom over `Δ` finds the
valuation (`Stratum.consequences_subset_joined`).
-/

namespace Datalog

namespace Rule

/-- The instances of the head whose bodies are true. -/
def consequences (r : Rule) (I : Interpretation) : Interpretation :=
  {g | ∃ v : Valuation, (∀ b ∈ r.body, b.ground v ∈ I) ∧ r.head.ground v = g}

/-- The instances of the head for which one body atom is in `Δ` and all others are in `I`. -/
def freshConsequences (r : Rule) (position : Nat) (Δ I : Interpretation) : Interpretation :=
  {g | ∃ v : Valuation, (∀ j b, r.body[j]? = some b →
    b.ground v ∈ if j = position then Δ else I) ∧ r.head.ground v = g}

theorem holdsIn_iff {r : Rule} {I : Interpretation} : r.HoldsIn I ↔ r.consequences I ⊆ I := by
  constructor
  · rintro h g ⟨v, hbody, rfl⟩
    exact h v hbody
  · exact fun h v hbody => h ⟨v, hbody, rfl⟩

theorem consequences_mono (r : Rule) {I J : Interpretation} (h : I ⊆ J) :
    r.consequences I ⊆ r.consequences J := by
  rintro g ⟨v, hbody, rfl⟩
  exact ⟨v, fun b hb => h (hbody b hb), rfl⟩

theorem fst_of_mem_consequences {r : Rule} {I : Interpretation} {g : GroundAtom}
    (h : g ∈ r.consequences I) : g.1 = r.head.predicate := by
  obtain ⟨v, -, rfl⟩ := h
  rfl

/-- Only the atoms over the predicates that the body reads matter. -/
theorem consequences_subset_of_agree {r : Rule} {I J : Interpretation}
    (h : ∀ b ∈ r.body, ∀ g ∈ I, g.1 = b.predicate → g ∈ J) :
    r.consequences I ⊆ r.consequences J := by
  rintro g ⟨v, hbody, rfl⟩
  exact ⟨v, fun b hb => h b hb _ (hbody b hb) rfl, rfl⟩

theorem freshConsequences_subset {r : Rule} {Δ I : Interpretation} (h : Δ ⊆ I) (position : Nat) :
    r.freshConsequences position Δ I ⊆ r.consequences I := by
  rintro g ⟨v, hbody, rfl⟩
  refine ⟨v, ?_, rfl⟩
  intro b hb
  obtain ⟨j, hj⟩ := List.mem_iff_getElem?.mp hb
  have hmem := hbody j b hj
  split at hmem
  · exact h hmem
  · exact hmem

end Rule

namespace Stratum

/-- The heads of all instances of the rules whose bodies are true. -/
def consequences (s : Stratum) (I : Interpretation) : Interpretation :=
  {g | ∃ r ∈ s.rules, g ∈ r.consequences I}

/-- One application of the rules. -/
def advance (s : Stratum) (I : Interpretation) : Interpretation := I ∪ s.consequences I

/-- What a round finds for a rule, if the database states `I` and the previous round added `Δ`. -/
def joined (settings : Settings) (s : Stratum) (round : Nat) (Δ I : Interpretation) (r : Rule) :
    Interpretation :=
  if round = 1 then r.consequences I
  else
    match settings.strategy with
    | .naive => if s.isRecursiveRule r then r.consequences I else ∅
    | .semiNaive => {g | ∃ i ∈ s.localPositions r, g ∈ r.freshConsequences i Δ I}

theorem mem_localPositions {s : Stratum} {r : Rule} {i : Nat} :
    i ∈ s.localPositions r ↔ ∃ b, r.body[i]? = some b ∧ b.predicate ∈ s.predicates := by
  unfold localPositions
  rw [List.mem_filter, List.mem_range, Option.any_eq_true]
  unfold isLocal
  simp only [decide_eq_true_iff]
  constructor
  · exact fun h => h.2
  · rintro ⟨b, hb, hlocal⟩
    exact ⟨(List.getElem?_eq_some_iff.mp hb).1, b, hb, hlocal⟩

theorem isRecursiveRule_iff {s : Stratum} {r : Rule} :
    s.isRecursiveRule r = true ↔ ∃ b ∈ r.body, b.predicate ∈ s.predicates := by
  unfold isRecursiveRule isLocal
  rw [List.any_eq_true]
  simp only [decide_eq_true_iff]

theorem consequences_mono (s : Stratum) {I J : Interpretation} (h : I ⊆ J) :
    s.consequences I ⊆ s.consequences J := by
  rintro g ⟨r, hr, hg⟩
  exact ⟨r, hr, r.consequences_mono h hg⟩

theorem subset_advance (s : Stratum) (I : Interpretation) : I ⊆ s.advance I :=
  Set.subset_union_left

/-- All rules hold exactly if there is nothing to add. -/
theorem consequences_subset_iff {s : Stratum} {I : Interpretation} :
    s.consequences I ⊆ I ↔ ∀ r ∈ s.rules, r.HoldsIn I := by
  constructor
  · intro h r hr
    rw [Rule.holdsIn_iff]
    exact fun g hg => h ⟨r, hr, hg⟩
  · rintro h g ⟨r, hr, hg⟩
    exact Rule.holdsIn_iff.mp (h r hr) hg

/-- An interpretation in which the rules hold contains what the rules add below it. -/
theorem advance_subset {s : Stratum} {I J : Interpretation} (hJ : ∀ r ∈ s.rules, r.HoldsIn J)
    (h : I ⊆ J) : s.advance I ⊆ J :=
  Set.union_subset h ((s.consequences_mono h).trans (consequences_subset_iff.mpr hJ))

/-- A round finds nothing but consequences. -/
theorem joined_subset_consequences (settings : Settings) (s : Stratum) (round : Nat)
    {Δ I : Interpretation} (h : Δ ⊆ I) (r : Rule) :
    s.joined settings round Δ I r ⊆ r.consequences I := by
  unfold joined
  split
  · exact subset_rfl
  · split
    · split
      · exact subset_rfl
      · exact Set.empty_subset _
    · rintro g ⟨i, -, hg⟩
      exact Rule.freshConsequences_subset h i hg

theorem fst_of_mem_joined {settings : Settings} {s : Stratum} {round : Nat} {Δ I : Interpretation}
    {r : Rule} {g : GroundAtom} (h : g ∈ s.joined settings round Δ I r) :
    g.1 = r.head.predicate := by
  unfold joined at h
  split at h
  · exact Rule.fst_of_mem_consequences h
  · split at h
    · split at h
      · exact Rule.fst_of_mem_consequences h
      · exact absurd h (Set.notMem_empty g)
    · obtain ⟨i, -, v, -, rfl⟩ := h
      rfl

/-- **A round after the first finds every consequence that needs a new tuple.** -/
theorem consequences_subset_joined (settings : Settings) (s : Stratum) (round : Nat)
    {Δ I : Interpretation} (hlocal : ∀ g ∈ Δ, g.1 ∈ s.predicates) (r : Rule) :
    r.consequences I ⊆ r.consequences (I \ Δ) ∪ s.joined settings round Δ I r := by
  rintro g ⟨v, hbody, rfl⟩
  by_cases hold : ∀ b ∈ r.body, b.ground v ∉ Δ
  · exact Or.inl ⟨v, fun b hb => ⟨hbody b hb, hold b hb⟩, rfl⟩
  · right
    push Not at hold
    obtain ⟨b, hb, hbΔ⟩ := hold
    have hpred : b.predicate ∈ s.predicates := hlocal _ hbΔ
    unfold joined
    split
    · exact ⟨v, hbody, rfl⟩
    · split
      · rw [if_pos (isRecursiveRule_iff.mpr ⟨b, hb, hpred⟩)]
        exact ⟨v, hbody, rfl⟩
      · obtain ⟨i, hi⟩ := List.mem_iff_getElem?.mp hb
        refine ⟨i, mem_localPositions.mpr ⟨b, hi, hpred⟩, v, ?_, rfl⟩
        intro j b' hj
        by_cases hji : j = i
        · rw [if_pos hji]
          rw [hji, hi] at hj
          rw [← Option.some.inj hj]
          exact hbΔ
        · rw [if_neg hji]
          exact hbody b' (List.mem_of_getElem? hj)

end Stratum

end Datalog
