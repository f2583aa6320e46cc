import Datalog.Proofs.Program.Shuffle
import Datalog.Proofs.Stratification.Rules

/-!
# The strata of a program in another order

Two programs with the same clauses number their predicates differently, so their dependency graphs
are searched in different orders, and their strata come in different orders as well.  But a stratum
is a class of mutually dependent predicates, and which predicates depend on each other does not
change.  So the strata of the two programs *match*: the same predicates, the same flag, the same
rules but for the order (`Stratification.exists_matches`).

* `Stratum.Matches`: the same stratum, but for the order.
* `Stratum.signature`: the predicates and the flag of a stratum, without an order.
* `Stratum.Reads`: the predicates that matter to a stratum.
-/

namespace Datalog

namespace Stratum

/-- The same predicates, the same flag and the same rules, but for the order. -/
structure Matches (s s' : Stratum) : Prop where
  predicates : ∀ name, name ∈ s.predicates ↔ name ∈ s'.predicates
  recursive : s.recursive = s'.recursive
  forth : ∀ r ∈ s.rules, ∃ r' ∈ s'.rules, r.Rearranged r'
  back : ∀ r' ∈ s'.rules, ∃ r ∈ s.rules, r.Rearranged r'

/-- The predicates of a stratum and its flag. -/
def signature (s : Stratum) : Finset Predicate × Bool := (s.predicates.toFinset, s.recursive)

/-- The predicates of a stratum and those that its rules read. -/
def Reads (s : Stratum) (name : Predicate) : Prop :=
  name ∈ s.predicates ∨ ∃ r ∈ s.rules, ∃ b ∈ r.body, b.predicate = name

namespace Matches

variable {s s' : Stratum}

theorem symm (h : s.Matches s') : s'.Matches s where
  predicates name := (h.predicates name).symm
  recursive := h.recursive.symm
  forth r hr := by
    obtain ⟨r', hr', hrr'⟩ := h.back r hr
    exact ⟨r', hr', hrr'.symm⟩
  back r hr := by
    obtain ⟨r', hr', hrr'⟩ := h.forth r hr
    exact ⟨r', hr', hrr'.symm⟩

theorem signature_eq (h : s.Matches s') : s.signature = s'.signature := by
  refine Prod.ext (Finset.ext fun name => ?_) h.recursive
  show name ∈ s.predicates.toFinset ↔ name ∈ s'.predicates.toFinset
  rw [List.mem_toFinset, List.mem_toFinset]
  exact h.predicates name

theorem consequences_subset (h : s.Matches s') (I : Interpretation) :
    s.consequences I ⊆ s'.consequences I := by
  rintro g ⟨r, hr, hg⟩
  obtain ⟨r', hr', hrr'⟩ := h.forth r hr
  rw [hrr'.consequences] at hg
  exact ⟨r', hr', hg⟩

/-- The rules of both strata add the same atoms. -/
theorem consequences_eq (h : s.Matches s') (I : Interpretation) :
    s.consequences I = s'.consequences I :=
  Set.Subset.antisymm (h.consequences_subset I) (h.symm.consequences_subset I)

theorem reads_of_reads (h : s.Matches s') {name : Predicate} (hname : s.Reads name) :
    s'.Reads name := by
  rcases hname with hown | ⟨r, hr, b, hb, rfl⟩
  · exact Or.inl ((h.predicates name).mp hown)
  · obtain ⟨r', hr', hrr'⟩ := h.forth r hr
    exact Or.inr ⟨r', hr', b, hrr'.body.mem_iff.mp hb, rfl⟩

theorem rules_eq_nil (h : s.Matches s') (hempty : s.rules = []) : s'.rules = [] := by
  refine List.eq_nil_iff_forall_not_mem.mpr fun r' hr' => ?_
  obtain ⟨r, hr, -⟩ := h.back r' hr'
  rw [hempty] at hr
  exact List.not_mem_nil hr

theorem isEmpty_rules (h : s.Matches s') : s.rules.isEmpty = s'.rules.isEmpty := by
  rw [Bool.eq_iff_iff, List.isEmpty_iff, List.isEmpty_iff]
  exact ⟨h.rules_eq_nil, h.symm.rules_eq_nil⟩

end Matches

end Stratum

namespace Stratification

variable {p p' : Program} {s s' : Stratum}

/-- Strata that share a predicate match. -/
theorem matches_of_mem (h : p.SameClauses p') (hs : s ∈ (ofProgram p).strata)
    (hs' : s' ∈ (ofProgram p').strata) {a : Predicate} (ha : a ∈ s.predicates)
    (ha' : a ∈ s'.predicates) : s.Matches s' := by
  have hnames : ∀ b, b ∈ s.predicates ↔ b ∈ s'.predicates := by
    intro b
    rw [mem_predicates_iff h.left hs ha, mem_predicates_iff h.right hs' ha', h.mem_predicates_iff,
      h.dependsOn_eq]
  refine ⟨hnames, ?_, fun r hr => ?_, fun r' hr' => ?_⟩
  · rw [Bool.eq_iff_iff, recursive_iff h.left hs ha, recursive_iff h.right hs' ha', h.dependsOn_eq]
  · obtain ⟨hrule, hhead⟩ := (mem_rules_iff hs).mp hr
    obtain ⟨r', hr', hrr'⟩ := h.exists_rule hrule
    refine ⟨r', (mem_rules_iff hs').mpr ⟨hr', ?_⟩, hrr'⟩
    rw [← hrr'.head]
    exact (hnames _).mp hhead
  · obtain ⟨hrule, hhead⟩ := (mem_rules_iff hs').mp hr'
    obtain ⟨r, hr, hrr'⟩ := h.symm.exists_rule hrule
    refine ⟨r, (mem_rules_iff hs).mpr ⟨hr, ?_⟩, hrr'.symm⟩
    rw [← hrr'.head]
    exact (hnames _).mpr hhead

/-- **Every stratum of one program matches a stratum of the other.** -/
theorem exists_matches (h : p.SameClauses p') (hs : s ∈ (ofProgram p).strata) :
    ∃ s' ∈ (ofProgram p').strata, s.Matches s' := by
  obtain ⟨a, ha⟩ := exists_mem_predicates hs
  have hname : a ∈ p.predicates :=
    (perm_predicates p).mem_iff.mp (List.mem_flatMap.mpr ⟨s, hs, ha⟩)
  obtain ⟨s', hs', ha'⟩ := exists_stratum (h.mem_predicates_iff.mp hname)
  exact ⟨s', hs', matches_of_mem h hs hs' ha ha'⟩

/-- Different strata have different signatures. -/
theorem nodup_signatures (hp : p.Valid) :
    ((ofProgram p).strata.map Stratum.signature).Nodup := by
  refine List.pairwise_map.mpr ?_
  refine (List.nodup_flatMap.mp (nodup_predicates hp)).2.imp_of_mem fun {s s'} hs _ hapart heq => ?_
  obtain ⟨a, ha⟩ := exists_mem_predicates hs
  have hmem : a ∈ s.predicates.toFinset := List.mem_toFinset.mpr ha
  rw [(Prod.mk.inj heq).1] at hmem
  exact hapart ha (List.mem_toFinset.mp hmem)

/-- Both programs have the same strata. -/
theorem perm_signatures (h : p.SameClauses p') :
    ((ofProgram p).strata.map Stratum.signature).Perm
      ((ofProgram p').strata.map Stratum.signature) := by
  have hforth : ∀ {q q' : Program}, q.SameClauses q' → ∀ x,
      x ∈ (ofProgram q).strata.map Stratum.signature →
        x ∈ (ofProgram q').strata.map Stratum.signature := by
    intro q q' hq x hx
    obtain ⟨s, hs, rfl⟩ := List.mem_map.mp hx
    obtain ⟨s', hs', hmatch⟩ := exists_matches hq hs
    exact List.mem_map.mpr ⟨s', hs', hmatch.signature_eq.symm⟩
  refine (List.perm_ext_iff_of_nodup (nodup_signatures h.left) (nodup_signatures h.right)).mpr ?_
  exact fun x => ⟨hforth h x, hforth h.symm x⟩

/-- If only the clauses have changed places, so have the rules of matching strata. -/
theorem perm_rules_of_perm (h : p.clauses.Perm p'.clauses) (hs : s ∈ (ofProgram p).strata)
    (hs' : s' ∈ (ofProgram p').strata) (hmatch : s.Matches s') : s.rules.Perm s'.rules := by
  rw [rules_eq_filter_predicates hs, rules_eq_filter_predicates hs']
  have hsame : (p'.rules.filter fun r => r.head.predicate ∈ s'.predicates) =
      p'.rules.filter fun r => r.head.predicate ∈ s.predicates :=
    List.filter_congr fun r _ => decide_eq_decide.mpr (hmatch.predicates _).symm
  rw [hsame]
  exact (h.filterMap Clause.rule?).filter _

end Stratification

end Datalog
