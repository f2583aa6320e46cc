import Datalog.Proofs.Stratification

/-!
# Where the rules of a program are evaluated

A stratum evaluates the rules whose head it lists.  Since the strata list every predicate once, each
rule is evaluated in one place, a rule that is stated twice is evaluated twice there, and the order
of the program is kept (`Stratification.perm_rules`, `Stratification.rules_eq_filter`).

The strata come dependencies first: along a chain of dependencies the places of the strata never
rise (`Stratification.exists_stratumOf?_le`).  So what a rule reads belongs to an earlier stratum,
or to its own, and the latter only if its predicate depends on itself.
-/

namespace Datalog

/-- A list is split by tests of which every element passes exactly one. -/
theorem perm_flatMap_filter {α β : Type} {parts : List β} {test : β → α → Bool} {xs : List α}
    (hapart : parts.Pairwise fun c d => ∀ x, test c x = true → test d x = false)
    (hcover : ∀ x ∈ xs, ∃ c ∈ parts, test c x = true) :
    (parts.flatMap fun c => xs.filter (test c)).Perm xs := by
  induction parts generalizing xs with
  | nil =>
    have hnil : xs = [] := List.eq_nil_iff_forall_not_mem.mpr fun x hx => by
      obtain ⟨c, hc, -⟩ := hcover x hx
      exact List.not_mem_nil hc
    rw [hnil]
    exact .refl _
  | cons c parts ih =>
    obtain ⟨hfirst, hapart⟩ := List.pairwise_cons.mp hapart
    -- What the other tests select is not touched by dropping what the first one selects.
    have hrest : ∀ d ∈ parts, (xs.filter fun x => !test c x).filter (test d) =
        xs.filter (test d) := by
      intro d hd
      rw [List.filter_filter]
      refine List.filter_congr fun x _ => ?_
      cases hc : test c x with
      | true => simp [hfirst d hd x hc]
      | false => simp
    have htail : (parts.flatMap fun d => xs.filter (test d)).Perm
        (xs.filter fun x => !test c x) := by
      rw [← List.flatMap_congr hrest]
      refine ih hapart fun x hx => ?_
      obtain ⟨hx, hnot⟩ := List.mem_filter.mp hx
      obtain ⟨d, hd, htest⟩ := hcover x hx
      rcases List.mem_cons.mp hd with rfl | hd
      · rw [htest] at hnot
        cases hnot
      · exact ⟨d, hd, htest⟩
    rw [List.flatMap_cons]
    exact (htail.append_left _).trans (List.filter_append_perm (test c) xs)

namespace Stratification

variable {p : Program} {s : Stratum} {i : Nat}

/-- A stratum has the rules for its predicates, in program order. -/
theorem rules_eq_filter_predicates (hs : s ∈ (ofProgram p).strata) :
    s.rules = p.rules.filter fun r => r.head.predicate ∈ s.predicates := by
  obtain ⟨c, -, rfl⟩ := mem_strata_iff.mp hs
  rfl

section Valid

variable (hp : p.Valid)

include hp

theorem stratumOf?_of_mem {a : Predicate} (hs : (ofProgram p).strata[i]? = some s)
    (ha : a ∈ s.predicates) : (ofProgram p).stratumOf? a = some i :=
  (stratumOf?_eq_some_iff hp).mpr ⟨s, hs, ha⟩

theorem mem_predicates_iff_stratumOf? {a : Predicate} (hs : (ofProgram p).strata[i]? = some s) :
    a ∈ s.predicates ↔ (ofProgram p).stratumOf? a = some i := by
  refine ⟨stratumOf?_of_mem hp hs, fun ha => ?_⟩
  obtain ⟨s', hs', ha'⟩ := (stratumOf?_eq_some_iff hp).mp ha
  rw [hs] at hs'
  rw [Option.some.inj hs']
  exact ha'

/-- A rule belongs to the stratum of its head. -/
theorem rules_eq_filter (hs : (ofProgram p).strata[i]? = some s) :
    s.rules = p.rules.filter fun r => (ofProgram p).stratumOf? r.head.predicate = some i := by
  rw [rules_eq_filter_predicates (List.mem_of_getElem? hs)]
  refine List.filter_congr fun r _ => ?_
  rw [decide_eq_decide]
  exact mem_predicates_iff_stratumOf? hp hs

/-- Every rule is listed as often by the strata as by the program. -/
theorem perm_rules : ((ofProgram p).strata.flatMap Stratum.rules).Perm p.rules := by
  rw [List.flatMap_congr fun s hs => rules_eq_filter_predicates hs]
  refine perm_flatMap_filter ?_ fun r hr => ?_
  · refine (List.nodup_flatMap.mp (nodup_predicates hp)).2.imp ?_
    intro s s' hapart r hr
    rw [decide_eq_true_iff] at hr
    rw [decide_eq_false_iff_not]
    exact hapart hr
  · obtain ⟨s, hs, hhead⟩ := exists_stratum (hp.head_mem_predicates hr)
    exact ⟨s, hs, decide_eq_true hhead⟩

/-- Along a chain of dependencies the places of the strata never rise. -/
theorem exists_stratumOf?_le {a b : Predicate} (ha : (ofProgram p).stratumOf? a = some i)
    (hb : b ∈ p.predicates) (hdep : Relation.ReflTransGen p.DependsOn a b) :
    ∃ j ≤ i, (ofProgram p).stratumOf? b = some j := by
  obtain ⟨s, hs, has⟩ := (stratumOf?_eq_some_iff hp).mp ha
  obtain ⟨j, s', hj, hbs'⟩ := exists_place hb
  refine ⟨j, ?_, stratumOf?_of_mem hp hj hbs'⟩
  by_contra hlt
  obtain ⟨hilt, rfl⟩ := List.getElem?_eq_some_iff.mp hs
  obtain ⟨hjlt, rfl⟩ := List.getElem?_eq_some_iff.mp hj
  have hlater := List.pairwise_iff_getElem.mp (sorted hp) i j hilt hjlt (Nat.lt_of_not_le hlt)
  exact hlater a has b hbs' hdep

/-- What a rule reads belongs to an earlier stratum, or to its own, and then the predicates of the
stratum depend on themselves. -/
theorem exists_stratumOf?_body (hs : (ofProgram p).strata[i]? = some s) {r : Rule}
    (hr : r ∈ s.rules) {b : Atom} (hb : b ∈ r.body) :
    ∃ j ≤ i, (ofProgram p).stratumOf? b.predicate = some j ∧ (j = i → s.recursive = true) := by
  have hmem := List.mem_of_getElem? hs
  obtain ⟨hrule, hhead⟩ := (mem_rules_iff hmem).mp hr
  have hdep : p.DependsOn r.head.predicate b.predicate := ⟨r, hrule, rfl, b, hb, rfl⟩
  obtain ⟨j, hle, hj⟩ := exists_stratumOf?_le hp (stratumOf?_of_mem hp hs hhead)
    (hp.body_mem_predicates hrule hb) (.single hdep)
  refine ⟨j, hle, hj, ?_⟩
  rintro rfl
  have hown := (mem_predicates_iff_stratumOf? hp hs).mpr hj
  obtain ⟨-, -, hback⟩ := (mem_predicates_iff hp hmem hhead).mp hown
  exact (recursive_iff hp hmem hhead).mpr (Relation.TransGen.head' hdep hback)

end Valid

/-- **Every rule is evaluated in one place, after what it reads.**  The strata list each rule of the
program as often as the program does; a rule is listed by one stratum only, the one that holds its
head predicate, and the order there is that of the program.  A body predicate has a stratum, which
is not later than that of the rule, and which is the same only if that stratum is recursive. -/
theorem rules_listed_once_dependencies_first {p : Program} (hp : p.Reachable) :
    ((ofProgram p).strata.flatMap Stratum.rules).Perm p.rules ∧
    (∀ r ∈ p.rules, ∃! i : Nat, ∃ s, (ofProgram p).strata[i]? = some s ∧ r ∈ s.rules) ∧
    (∀ (i : Nat) s, (ofProgram p).strata[i]? = some s →
      s.rules = p.rules.filter (fun r => r.head.predicate ∈ s.predicates) ∧
      s.rules = p.rules.filter fun r => (ofProgram p).stratumOf? r.head.predicate = some i) ∧
    ∀ (i : Nat) s, (ofProgram p).strata[i]? = some s → ∀ r ∈ s.rules, ∀ b ∈ r.body,
      ∃ j ≤ i, (ofProgram p).stratumOf? b.predicate = some j ∧ (j = i → s.recursive = true) := by
  have hvalid := hp.valid
  refine ⟨perm_rules hvalid, ?_, ?_, fun i s hs r hr b hb => exists_stratumOf?_body hvalid hs hr hb⟩
  · intro r hr
    obtain ⟨i, s, hi, hhead⟩ := exists_place (hvalid.head_mem_predicates hr)
    refine ⟨i, ⟨s, hi, (mem_rules_iff (List.mem_of_getElem? hi)).mpr ⟨hr, hhead⟩⟩, ?_⟩
    rintro j ⟨s', hj, hr'⟩
    have hhead' := ((mem_rules_iff (List.mem_of_getElem? hj)).mp hr').2
    exact place_unique hvalid hj hhead' hi hhead
  · exact fun i s hs =>
      ⟨rules_eq_filter_predicates (List.mem_of_getElem? hs), rules_eq_filter hvalid hs⟩

/-- A direct connection is a connection. -/
def directRule : Rule :=
  ⟨⟨"connected", [.var "X", .var "Y"]⟩, [⟨"line", [.var "X", .var "Y"]⟩]⟩

/-- Connections between stations, with one rule stated twice. -/
def connections : Program :=
  finalState (Program.extend
    [.rule ⟨⟨"circle", [.var "X"]⟩, [⟨"connected", [.var "X", .var "X"]⟩]⟩,
      .rule directRule,
      .rule ⟨⟨"connected", [.var "X", .var "Z"]⟩,
        [⟨"connected", [.var "X", .var "Y"]⟩, ⟨"connected", [.var "Y", .var "Z"]⟩]⟩,
      .rule directRule] {})

theorem direct_rule_listed_twice :
    ((ofProgram connections).strata.flatMap Stratum.rules).count directRule = 2 ∧
      ∃ i, (ofProgram connections).stratumOf? "connected" = some i ∧
        ∃ j ≤ i, (ofProgram connections).stratumOf? "line" = some j := by
  obtain ⟨hperm, hplaced, -, hbody⟩ :=
    rules_listed_once_dependencies_first (.extend _ .empty : connections.Reachable)
  have hrule : directRule ∈ connections.rules := by decide +kernel
  refine ⟨hperm.count_eq directRule |>.trans (by decide +kernel), ?_⟩
  obtain ⟨i, ⟨s, hs, hr⟩, -⟩ := hplaced directRule hrule
  obtain ⟨j, hle, hj, -⟩ := hbody i s hs directRule hr ⟨"line", [.var "X", .var "Y"]⟩ (by decide)
  refine ⟨i, ?_, j, hle, hj⟩
  exact (mem_predicates_iff_stratumOf? (Program.Reachable.extend _ .empty).valid hs).mp
    ((mem_rules_iff (List.mem_of_getElem? hs)).mp hr).2

end Stratification

end Datalog
