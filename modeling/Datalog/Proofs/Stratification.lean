import Datalog.Proofs.Digraph.Counted
import Datalog.Proofs.Program
import Datalog.Proofs.Table
import Datalog.Stratification

/-!
# The strata of a program

The nodes of the dependency graph are the predicates of the program, so paths in the graph are
chains of dependencies (`Dependency.reaches_iff`).  What is known about the components of a graph
becomes a statement about predicates: the strata are the classes of mutually dependent predicates,
and their flags say which of them depend on themselves.

* `Stratification.Tabled`: the table of places leads to strata, and to one from every predicate that
  is listed.  It is kept when a stratum is added (`Tabled.push`), whatever the stratum lists.
* `Stratification.stratumOf?_eq_some_iff`: since no two strata of a program share a predicate, what
  the table has is the place of the only stratum that lists the predicate.
* `Stratification.ofProgram_eq_counted`: the same strata by a search whose steps are counted, which
  is how those of a concrete program are evaluated.
-/

namespace Datalog

/-- Some rule for the first predicate reads the second. -/
def Program.DependsOn (p : Program) (a b : Predicate) : Prop :=
  ∃ r ∈ p.rules, r.head.predicate = a ∧ ∃ x ∈ r.body, x.predicate = b

theorem Program.Valid.head_mem_predicates {p : Program} (hp : p.Valid) {r : Rule}
    (hr : r ∈ p.rules) : r.head.predicate ∈ p.predicates :=
  hp.mem_predicates_iff.mpr ⟨.rule r, mem_rules.mp hr, r.head, List.mem_cons_self, rfl⟩

theorem Program.Valid.body_mem_predicates {p : Program} (hp : p.Valid) {r : Rule}
    (hr : r ∈ p.rules) {b : Atom} (hb : b ∈ r.body) : b.predicate ∈ p.predicates :=
  hp.mem_predicates_iff.mpr ⟨.rule r, mem_rules.mp hr, b, List.mem_cons_of_mem _ hb, rfl⟩

/-! ## Nodes and predicates -/

namespace Dependency

theorem finIdxOf?_eq_some_iff {names : List Predicate} (h : names.Nodup) {name : Predicate}
    {v : Fin names.length} : names.finIdxOf? name = some v ↔ names.get v = name := by
  rw [List.finIdxOf?_eq_some_iff]
  constructor
  · exact fun hv => hv.1
  · intro hv
    refine ⟨hv, fun j hj heq => ?_⟩
    have hsame : j = v := h.injective_get (heq.trans hv.symm)
    rw [hsame] at hj
    exact Nat.lt_irrefl _ hj

/-- The predicate of a node. -/
def nameOf (d : Dependency) (v : Fin d.predicates.length) : Predicate := d.predicates.get v

section Nodes

variable {p : Program}

theorem exists_nameOf {a : Predicate} (h : a ∈ p.predicates) : ∃ v, (ofProgram p).nameOf v = a :=
  List.get_of_mem h

theorem nameOf_mem (v : Fin (ofProgram p).predicates.length) :
    (ofProgram p).nameOf v ∈ p.predicates := List.get_mem _ v

variable (hp : p.Valid)

include hp

theorem nameOf_injective : Function.Injective (ofProgram p).nameOf :=
  List.Nodup.injective_get hp.nodup

/-- The edges are the dependencies. -/
theorem mem_out_iff {u v : Fin (ofProgram p).predicates.length} :
    v ∈ (ofProgram p).graph.out u ↔
      p.DependsOn ((ofProgram p).nameOf u) ((ofProgram p).nameOf v) := by
  have hnodup : (ofProgram p).predicates.Nodup := hp.nodup
  have hout : (ofProgram p).graph.out u =
      reads (ofProgram p).predicates p.rules ((ofProgram p).nameOf u) :=
    Vector.getElem_ofFn u.isLt
  rw [hout, reads, List.mem_eraseDups, List.mem_filterMap]
  constructor
  · rintro ⟨b, hb, hv⟩
    obtain ⟨r, hr, hbody⟩ := List.mem_flatMap.mp hb
    rw [List.mem_filter, decide_eq_true_iff] at hr
    exact ⟨r, hr.1, hr.2, b, hbody, ((finIdxOf?_eq_some_iff hnodup).mp hv).symm⟩
  · rintro ⟨r, hr, hhead, b, hb, hv⟩
    refine ⟨b, List.mem_flatMap.mpr ⟨r, ?_, hb⟩, (finIdxOf?_eq_some_iff hnodup).mpr hv.symm⟩
    rw [List.mem_filter, decide_eq_true_iff]
    exact ⟨hr, hhead⟩

theorem exists_reaches {u : Fin (ofProgram p).predicates.length} {b : Predicate}
    (h : Relation.ReflTransGen p.DependsOn ((ofProgram p).nameOf u) b) :
    ∃ v, (ofProgram p).nameOf v = b ∧ (ofProgram p).graph.Reaches u v := by
  induction h with
  | refl => exact ⟨u, rfl, .refl⟩
  | tail _ hdep ih =>
    obtain ⟨v, rfl, hv⟩ := ih
    obtain ⟨r, hr, hhead, b, hb, rfl⟩ := hdep
    obtain ⟨w, hw⟩ := exists_nameOf (hp.body_mem_predicates hr hb)
    refine ⟨w, hw, hv.trans (Digraph.reaches_of_mem_out ((mem_out_iff hp).mpr ?_))⟩
    exact ⟨r, hr, hhead, b, hb, hw.symm⟩

/-- Paths in the graph are chains of dependencies. -/
theorem reaches_iff {u v : Fin (ofProgram p).predicates.length} :
    (ofProgram p).graph.Reaches u v ↔
      Relation.ReflTransGen p.DependsOn ((ofProgram p).nameOf u) ((ofProgram p).nameOf v) := by
  constructor
  · exact fun h => h.lift _ fun a b hab => (mem_out_iff hp).mp hab
  · intro h
    obtain ⟨w, hw, hreach⟩ := exists_reaches hp h
    rw [nameOf_injective hp hw] at hreach
    exact hreach

theorem transGen_iff {u : Fin (ofProgram p).predicates.length} :
    Relation.TransGen p.DependsOn ((ofProgram p).nameOf u) ((ofProgram p).nameOf u) ↔
      ∃ v ∈ (ofProgram p).graph.out u, (ofProgram p).graph.Reaches v u := by
  rw [Relation.TransGen.head'_iff]
  constructor
  · rintro ⟨b, hdep, hback⟩
    obtain ⟨v, rfl, -⟩ := exists_reaches hp (.single hdep)
    exact ⟨v, (mem_out_iff hp).mpr hdep, (reaches_iff hp).mpr hback⟩
  · rintro ⟨v, hedge, hback⟩
    exact ⟨_, (mem_out_iff hp).mp hedge, (reaches_iff hp).mp hback⟩

end Nodes

theorem groups_spec (d : Dependency) :
    d.graph.Splits d.groups ∧ ∀ v, ∃ c ∈ d.groups, v ∈ c := d.graph.components_spec

/-- A component depends on itself exactly if its flag says so. -/
theorem isRecursive_iff {d : Dependency} {c : List (Fin d.predicates.length)}
    (hc : c ∈ d.groups) {u : Fin d.predicates.length} (hu : u ∈ c) :
    d.isRecursive c = true ↔ ∃ v ∈ d.graph.out u, d.graph.Reaches v u := by
  obtain ⟨hsplits, -⟩ := d.groups_spec
  have hmem := hsplits.mem_iff c hc
  have hnodup := hsplits.nodup c hc
  match c, hu with
  | [w], hu =>
    obtain rfl := List.mem_singleton.mp hu
    rw [isRecursive, Digraph.hasEdge, List.contains_iff_mem]
    constructor
    · exact fun hedge => ⟨u, hedge, .refl⟩
    · rintro ⟨v, hedge, hback⟩
      have hv := (hmem u hu v).mpr ⟨Digraph.reaches_of_mem_out hedge, hback⟩
      rw [List.mem_singleton.mp hv] at hedge
      exact hedge
  | a :: b :: rest, hu =>
    refine ⟨fun _ => ?_, fun _ => rfl⟩
    obtain ⟨v, hv, hne⟩ : ∃ v ∈ a :: b :: rest, v ≠ u := by
      by_cases hau : a = u
      · refine ⟨b, List.mem_cons_of_mem a List.mem_cons_self, ?_⟩
        rintro rfl
        exact (List.nodup_cons.mp hnodup).1 (hau ▸ List.mem_cons_self)
      · exact ⟨a, List.mem_cons_self, hau⟩
    obtain ⟨hto, hfrom⟩ := (hmem u hu v).mp hv
    rcases Relation.ReflTransGen.cases_head hto with heq | ⟨w, hedge, hrest⟩
    · exact absurd heq.symm hne
    · exact ⟨w, hedge, Relation.ReflTransGen.trans hrest hfrom⟩

end Dependency

/-! ## Strata -/

theorem Digraph.Splits.nodup_flatten {n : Nat} {g : Digraph n} {components : List (List (Fin n))}
    (h : g.Splits components) : components.flatten.Nodup := by
  rw [List.nodup_flatten]
  refine ⟨h.nodup, h.sorted.imp ?_⟩
  intro c d hcd u hu hu'
  exact hcd u hu u hu' .refl

namespace Stratification

section Table

variable {d : Stratification} {t : Stratum} {a : Predicate}

@[simp] theorem strata_push : (d.push t).strata = d.strata ++ [t] := rfl

/-- A stratum that is added takes over the predicates that it lists. -/
theorem stratumOf?_push : (d.push t).stratumOf? a =
    if a ∈ t.predicates then some d.strata.length else d.stratumOf? a :=
  Table.find?_foldl_upsert t.predicates d.strata.length d.places a

/-- The table leads from a predicate to a stratum that lists it, and it knows every predicate that
some stratum lists. -/
structure Tabled (d : Stratification) : Prop where
  exists_getElem? {a : Predicate} {i : Nat} : d.stratumOf? a = some i →
    ∃ t, d.strata[i]? = some t ∧ a ∈ t.predicates
  exists_place {a : Predicate} {t : Stratum} : t ∈ d.strata → a ∈ t.predicates →
    ∃ i, d.stratumOf? a = some i

theorem Tabled.empty : Tabled {} where
  exists_getElem? h := nomatch h
  exists_place h := nomatch h

theorem Tabled.push (h : d.Tabled) (t : Stratum) : (d.push t).Tabled where
  exists_getElem? := by
    intro a i hi
    rw [stratumOf?_push] at hi
    rw [strata_push]
    by_cases ha : a ∈ t.predicates
    · rw [if_pos ha] at hi
      obtain rfl := Option.some.inj hi
      exact ⟨t, List.getElem?_concat_length, ha⟩
    · rw [if_neg ha] at hi
      obtain ⟨s, hs, has⟩ := h.exists_getElem? hi
      have hi : i < d.strata.length := (List.getElem?_eq_some_iff.mp hs).1
      exact ⟨s, (List.getElem?_append_left hi).trans hs, has⟩
  exists_place := by
    intro a s hs has
    rw [stratumOf?_push]
    by_cases ha : a ∈ t.predicates
    · exact ⟨_, if_pos ha⟩
    · rw [if_neg ha]
      rcases List.mem_append.mp hs with hs | hs
      · exact h.exists_place hs has
      · rw [List.mem_singleton.mp hs] at has
        exact absurd has ha

theorem strata_foldl_push (ts : List Stratum) (d : Stratification) :
    (ts.foldl push d).strata = d.strata ++ ts := by
  induction ts generalizing d with
  | nil => exact (List.append_nil _).symm
  | cons t ts ih => rw [List.foldl_cons, ih, strata_push, List.append_assoc, List.singleton_append]

theorem Tabled.foldl_push (h : d.Tabled) (ts : List Stratum) :
    (ts.foldl Stratification.push d).Tabled := by
  induction ts generalizing d with
  | nil => exact h
  | cons t ts ih => exact ih (h.push t)

end Table

variable {p : Program} {s s' : Stratum} {a b : Predicate}

theorem ofProgram_eq_foldl (p : Program) : ofProgram p =
    ((Dependency.ofProgram p).groups.map (Stratum.ofGroup p (Dependency.ofProgram p))).foldl
      push {} :=
  List.foldl_map.symm

/-- The strata of a program, found by a search whose steps are counted.  Unlike those of
`ofProgram`, they can be evaluated by `decide`. -/
def ofProgramCounted (p : Program) : Stratification :=
  let d := Dependency.ofProgram p
  let groups := d.graph.componentsIn (d.predicates.length + d.graph.edgeCount)
  (groups.map (Stratum.ofGroup p d)).foldl push {}

theorem ofProgram_eq_counted : ofProgram = ofProgramCounted := by
  funext p
  rw [ofProgram_eq_foldl, Dependency.groups, Digraph.components_eq_componentsIn]
  rfl

/-- There is a stratum for each group. -/
theorem strata_ofProgram (p : Program) : (ofProgram p).strata =
    (Dependency.ofProgram p).groups.map (Stratum.ofGroup p (Dependency.ofProgram p)) := by
  rw [ofProgram_eq_foldl, strata_foldl_push]
  rfl

theorem tabled_ofProgram (p : Program) : (ofProgram p).Tabled := by
  rw [ofProgram_eq_foldl]
  exact Tabled.empty.foldl_push _

theorem mem_strata_iff : s ∈ (ofProgram p).strata ↔
    ∃ c ∈ (Dependency.ofProgram p).groups, Stratum.ofGroup p (Dependency.ofProgram p) c = s := by
  rw [strata_ofProgram, List.mem_map]

theorem mem_predicates_ofGroup {c : List (Fin (Dependency.ofProgram p).predicates.length)} :
    a ∈ (Stratum.ofGroup p (Dependency.ofProgram p) c).predicates ↔
      ∃ v ∈ c, (Dependency.ofProgram p).nameOf v = a := List.mem_map

theorem mem_rules_iff (hs : s ∈ (ofProgram p).strata) {r : Rule} :
    r ∈ s.rules ↔ r ∈ p.rules ∧ r.head.predicate ∈ s.predicates := by
  obtain ⟨c, -, rfl⟩ := mem_strata_iff.mp hs
  show r ∈ p.rules.filter _ ↔ _
  rw [List.mem_filter, decide_eq_true_iff]
  rfl

/-- The strata list every predicate once. -/
theorem perm_predicates (p : Program) :
    ((ofProgram p).strata.flatMap Stratum.predicates).Perm p.predicates := by
  have hflat : (ofProgram p).strata.flatMap Stratum.predicates =
      (Dependency.ofProgram p).groups.flatten.map (Dependency.ofProgram p).nameOf := by
    rw [List.map_flatten, List.flatMap_def, strata_ofProgram, List.map_map]
    rfl
  obtain ⟨hsplits, hall⟩ := (Dependency.ofProgram p).groups_spec
  have hnodes : (Dependency.ofProgram p).groups.flatten.Perm
      (List.finRange (Dependency.ofProgram p).predicates.length) := by
    rw [List.perm_ext_iff_of_nodup hsplits.nodup_flatten (List.nodup_finRange _)]
    refine fun v => ⟨fun _ => List.mem_finRange v, fun _ => ?_⟩
    obtain ⟨c, hc, hv⟩ := hall v
    exact List.mem_flatten.mpr ⟨c, hc, hv⟩
  rw [hflat]
  refine (hnodes.map _).trans (List.Perm.of_eq ?_)
  exact List.map_get_finRange _

theorem exists_stratum (ha : a ∈ p.predicates) : ∃ s ∈ (ofProgram p).strata, a ∈ s.predicates :=
  List.mem_flatMap.mp ((perm_predicates p).mem_iff.mpr ha)

theorem exists_place (ha : a ∈ p.predicates) :
    ∃ (i : Nat) (s : Stratum), (ofProgram p).strata[i]? = some s ∧ a ∈ s.predicates := by
  obtain ⟨s, hs, has⟩ := exists_stratum ha
  obtain ⟨i, hi⟩ := List.mem_iff_getElem?.mp hs
  exact ⟨i, s, hi, has⟩

section Valid

variable (hp : p.Valid)

include hp

theorem nodup_predicates : ((ofProgram p).strata.flatMap Stratum.predicates).Nodup :=
  (perm_predicates p).nodup_iff.mpr hp.nodup

/-- No two strata list the same predicate. -/
theorem place_unique {i j : Nat} (hs : (ofProgram p).strata[i]? = some s) (ha : a ∈ s.predicates)
    (hs' : (ofProgram p).strata[j]? = some s') (ha' : a ∈ s'.predicates) : i = j := by
  have hapart := List.pairwise_iff_getElem.mp (List.nodup_flatMap.mp (nodup_predicates hp)).2
  obtain ⟨hi, rfl⟩ := List.getElem?_eq_some_iff.mp hs
  obtain ⟨hj, rfl⟩ := List.getElem?_eq_some_iff.mp hs'
  rcases Nat.lt_trichotomy i j with hlt | heq | hlt
  · exact (hapart i j hi hj hlt ha ha').elim
  · exact heq
  · exact (hapart j i hj hi hlt ha' ha).elim

/-- What the table has for a predicate is the place of the stratum that lists it. -/
theorem stratumOf?_eq_some_iff {i : Nat} :
    (ofProgram p).stratumOf? a = some i ↔
      ∃ s, (ofProgram p).strata[i]? = some s ∧ a ∈ s.predicates := by
  have htabled := tabled_ofProgram p
  constructor
  · exact htabled.exists_getElem?
  · rintro ⟨s, hs, ha⟩
    obtain ⟨j, hj⟩ := htabled.exists_place (List.mem_of_getElem? hs) ha
    obtain ⟨s', hs', ha'⟩ := htabled.exists_getElem? hj
    rw [hj, place_unique hp hs ha hs' ha']

/-- The predicates of a stratum are those that depend on each other. -/
theorem mem_predicates_iff (hs : s ∈ (ofProgram p).strata) (ha : a ∈ s.predicates) :
    b ∈ s.predicates ↔ b ∈ p.predicates ∧
      Relation.ReflTransGen p.DependsOn a b ∧ Relation.ReflTransGen p.DependsOn b a := by
  obtain ⟨hsplits, -⟩ := (Dependency.ofProgram p).groups_spec
  obtain ⟨c, hc, rfl⟩ := mem_strata_iff.mp hs
  obtain ⟨u, hu, rfl⟩ := mem_predicates_ofGroup.mp ha
  rw [mem_predicates_ofGroup]
  constructor
  · rintro ⟨v, hv, rfl⟩
    obtain ⟨hto, hfrom⟩ := (hsplits.mem_iff c hc u hu v).mp hv
    exact ⟨Dependency.nameOf_mem v, (Dependency.reaches_iff hp).mp hto,
      (Dependency.reaches_iff hp).mp hfrom⟩
  · rintro ⟨hb, hto, hfrom⟩
    obtain ⟨v, rfl⟩ := Dependency.exists_nameOf hb
    refine ⟨v, (hsplits.mem_iff c hc u hu v).mpr ⟨?_, ?_⟩, rfl⟩
    · exact (Dependency.reaches_iff hp).mpr hto
    · exact (Dependency.reaches_iff hp).mpr hfrom

/-- The flag of a stratum says of each of its predicates whether it depends on itself. -/
theorem recursive_iff (hs : s ∈ (ofProgram p).strata) (ha : a ∈ s.predicates) :
    s.recursive = true ↔ Relation.TransGen p.DependsOn a a := by
  obtain ⟨c, hc, rfl⟩ := mem_strata_iff.mp hs
  obtain ⟨u, hu, rfl⟩ := mem_predicates_ofGroup.mp ha
  rw [Dependency.transGen_iff hp]
  exact Dependency.isRecursive_iff hc hu

/-- No stratum depends on a later one. -/
theorem sorted : (ofProgram p).strata.Pairwise fun s s' =>
    ∀ a ∈ s.predicates, ∀ b ∈ s'.predicates, ¬ Relation.ReflTransGen p.DependsOn a b := by
  obtain ⟨hsplits, -⟩ := (Dependency.ofProgram p).groups_spec
  rw [strata_ofProgram]
  refine List.pairwise_map.mpr (hsplits.sorted.imp ?_)
  intro c d hcd a ha b hb hdep
  obtain ⟨u, hu, rfl⟩ := mem_predicates_ofGroup.mp ha
  obtain ⟨v, hv, rfl⟩ := mem_predicates_ofGroup.mp hb
  exact hcd u hu v hv ((Dependency.reaches_iff hp).mpr hdep)

end Valid

theorem exists_mem_predicates (hs : s ∈ (ofProgram p).strata) : ∃ a, a ∈ s.predicates := by
  obtain ⟨hsplits, -⟩ := (Dependency.ofProgram p).groups_spec
  obtain ⟨c, hc, rfl⟩ := mem_strata_iff.mp hs
  obtain ⟨u, hu⟩ := List.exists_mem_of_ne_nil c (hsplits.nonempty c hc)
  exact ⟨_, mem_predicates_ofGroup.mpr ⟨u, hu, rfl⟩⟩

/-! ## The strata are the classes of mutual dependence -/

/-- **The strata of a program are its classes of mutually dependent predicates.**  They list every
predicate of the program once, `stratumOf?` gives the place of the stratum that lists a predicate,
two predicates share a stratum exactly if each depends on the other in zero or more steps, and a
stratum is recursive exactly if some predicate of it, and then every one, depends on itself in one
or more steps. -/
theorem strata_classify_predicates {p : Program} (hp : p.Reachable) :
    ((ofProgram p).strata.flatMap Stratum.predicates).Perm p.predicates ∧
    (∀ a ∈ p.predicates, ∃! i : Nat, ∃ s, (ofProgram p).strata[i]? = some s ∧ a ∈ s.predicates) ∧
    (∀ a i, (ofProgram p).stratumOf? a = some i ↔
      ∃ s, (ofProgram p).strata[i]? = some s ∧ a ∈ s.predicates) ∧
    (∀ a ∈ p.predicates, ∀ b ∈ p.predicates,
      (∃ s ∈ (ofProgram p).strata, a ∈ s.predicates ∧ b ∈ s.predicates) ↔
        Relation.ReflTransGen p.DependsOn a b ∧ Relation.ReflTransGen p.DependsOn b a) ∧
    ∀ s ∈ (ofProgram p).strata,
      (s.recursive = true ↔ ∃ a ∈ s.predicates, Relation.TransGen p.DependsOn a a) ∧
      (s.recursive = true ↔ ∀ a ∈ s.predicates, Relation.TransGen p.DependsOn a a) := by
  have hvalid := hp.valid
  refine ⟨perm_predicates p, ?_, fun a i => stratumOf?_eq_some_iff hvalid, ?_, ?_⟩
  · intro a ha
    obtain ⟨i, s, hi, has⟩ := exists_place ha
    refine ⟨i, ⟨s, hi, has⟩, ?_⟩
    rintro j ⟨s', hj, has'⟩
    exact place_unique hvalid hj has' hi has
  · intro a ha b hb
    constructor
    · rintro ⟨s, hs, has, hbs⟩
      exact ((mem_predicates_iff hvalid hs has).mp hbs).2
    · intro hmutual
      obtain ⟨s, hs, has⟩ := exists_stratum ha
      exact ⟨s, hs, has, (mem_predicates_iff hvalid hs has).mpr ⟨hb, hmutual⟩⟩
  · intro s hs
    obtain ⟨a, ha⟩ := exists_mem_predicates hs
    refine ⟨⟨fun h => ⟨a, ha, (recursive_iff hvalid hs ha).mp h⟩, ?_⟩,
      ⟨fun h b hb => (recursive_iff hvalid hs hb).mp h, ?_⟩⟩
    · rintro ⟨b, hb, hself⟩
      exact (recursive_iff hvalid hs hb).mpr hself
    · exact fun hall => (recursive_iff hvalid hs ha).mpr (hall a ha)

/-- Even and odd numbers, each defined through the other. -/
def evenOdd : Program :=
  finalState (Program.extend
    [.fact ⟨"zero", [.const "0"]⟩,
      .rule ⟨⟨"even", [.var "X"]⟩, [⟨"zero", [.var "X"]⟩]⟩,
      .rule ⟨⟨"even", [.var "X"]⟩, [⟨"next", [.var "Y", .var "X"]⟩, ⟨"odd", [.var "Y"]⟩]⟩,
      .rule ⟨⟨"odd", [.var "X"]⟩, [⟨"next", [.var "Y", .var "X"]⟩, ⟨"even", [.var "Y"]⟩]⟩] {})

theorem even_depends_on_odd_and_back :
    Relation.ReflTransGen evenOdd.DependsOn "even" "odd" ∧
      Relation.ReflTransGen evenOdd.DependsOn "odd" "even" := by
  obtain ⟨-, -, -, hshared, -⟩ := strata_classify_predicates (.extend _ .empty : evenOdd.Reachable)
  have hmem : ∀ name ∈ ["even", "odd"], name ∈ evenOdd.predicates := by decide +kernel
  refine (hshared "even" (hmem _ (by decide)) "odd" (hmem _ (by decide))).mp ?_
  have hany : (ofProgram evenOdd).strata.any
      (fun s => "even" ∈ s.predicates ∧ "odd" ∈ s.predicates) = true := by
    rw [ofProgram_eq_counted]
    decide +kernel
  obtain ⟨s, hs, hboth⟩ := List.any_eq_true.mp hany
  exact ⟨s, hs, of_decide_eq_true hboth⟩

end Stratification

end Datalog
