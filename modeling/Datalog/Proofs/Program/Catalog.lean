import Datalog.Proofs.Program.Validation

/-!
# The catalog says what the clauses say

The catalog of a program is kept up clause by clause, and cut back when a batch is refused.  It can
be read off the clauses nevertheless: the predicates in the order of their first occurrences, their
arities, and the places of the facts and of the rules that state them
(`Program.Reachable.catalogued`).

* `Signature.Collects`: one of the lists of a signature, which notes the clauses of one kind.
* `Catalog.places`: what such a list has for a predicate.
* `Catalog.Lists`: the names and the places are those of the clauses entered so far.
* `Program.Catalogued`: what the catalog of a program tells about its clauses.

## Why an unknown predicate is given empty lists

A clause is noted in two steps: first its predicates are made known, without any places, and then
its own place is appended for the predicate of its head.  If an unknown predicate counts as one with
empty lists, the first step changes no list at all, and the second one the same list that the new
clause is counted in.  So it never matters whether a predicate has been known before, and the places
are those of a search through all clauses (`Catalog.places_record`).
-/

namespace Datalog

section Lists

variable {α : Type}

theorem findIdxs_concat (p : α → Bool) (l : List α) (a : α) :
    (l ++ [a]).findIdxs p = l.findIdxs p ++ if p a then [l.length] else [] := by
  rw [List.findIdxs_append, List.findIdxs_singleton, Nat.zero_add]

/-- At the places that a search finds stand the elements that it looks for. -/
theorem map_getElem?_findIdxs (p : α → Bool) (l : List α) :
    (l.findIdxs p).map (fun i => l[i]?) = (l.filter p).map some := by
  induction l using List.reverseRecOn with
  | nil => rfl
  | append_singleton l a ih =>
    have hold : (l.findIdxs p).map (fun i => (l ++ [a])[i]?) =
        (l.findIdxs p).map fun i => l[i]? := by
      apply List.map_congr_left
      intro i hi
      exact List.getElem?_append_left (List.lt_add_of_mem_findIdxs i hi)
    rw [findIdxs_concat, List.map_append, hold, ih, List.filter_append, List.map_append]
    by_cases ha : p a <;> simp [ha]

end Lists

/-! ## The lists of a signature -/

namespace Signature

/-- A list of a signature that starts empty, and notes the clauses of one kind. -/
structure Collects (kind : Clause → Bool) (field : Signature → List Nat) : Prop where
  new : ∀ k, field ⟨k, [], []⟩ = []
  record : ∀ s place c, field (s.record place c) = field s ++ if kind c then [place] else []

theorem collects_facts : Collects (fun c => c.fact?.isSome) facts where
  new _ := rfl
  record s place c := by cases c <;> simp [Signature.record, Clause.fact?]

theorem collects_rules : Collects (fun c => c.rule?.isSome) rules where
  new _ := rfl
  record s place c := by cases c <;> simp [Signature.record, Clause.rule?]

end Signature

/-- Whether a clause is of some kind, and states a predicate. -/
def Clause.states (kind : Clause → Bool) (name : Predicate) (c : Clause) : Bool :=
  kind c && c.head.predicate = name

theorem Clause.mem_findIdxs_states {kind : Clause → Bool} {name : Predicate} {cs : List Clause}
    {i : Nat} : i ∈ cs.findIdxs (states kind name) ↔
      ∃ c, cs[i]? = some c ∧ kind c = true ∧ c.head.predicate = name := by
  rw [List.mem_findIdxs_iff_exists_getElem_pos]
  constructor
  · rintro ⟨hi, hstates⟩
    exact ⟨cs[i], List.getElem?_eq_getElem hi, by simpa [states] using hstates⟩
  · rintro ⟨c, hc, hkind, hname⟩
    obtain ⟨hi, rfl⟩ := List.getElem?_eq_some_iff.mp hc
    exact ⟨hi, by simp [states, hkind, hname]⟩

/-! ## What entering a clause adds -/

namespace Catalog

/-- What a list of the signature has for a predicate; for an unknown one it is empty. -/
def places (field : Signature → List Nat) (catalog : Catalog) (name : Predicate) : List Nat :=
  (Table.find? catalog name).elim [] field

section Places

variable {kind : Clause → Bool} {field : Signature → List Nat} {catalog catalog' : Catalog}

theorem places_declare (hfield : Signature.Collects kind field) {a : Atom}
    (h : declare a catalog = .ok () catalog') (name : Predicate) :
    places field catalog' name = places field catalog name := by
  rcases declare_eq_ok h with ⟨hfind, rfl⟩ | ⟨-, -, -, rfl⟩
  · rw [places, places, Table.find?_insertNew, hfind]
    by_cases hname : name = a.predicate
    · rw [if_pos hname, hname, hfind]
      exact hfield.new a.arity
    · rw [if_neg hname]
  · rfl

theorem places_declareAll (hfield : Signature.Collects kind field) {as : List Atom}
    (h : declareAll as catalog = .ok () catalog') (name : Predicate) :
    places field catalog' name = places field catalog name := by
  induction as generalizing catalog with
  | nil =>
    obtain ⟨-, rfl⟩ := pure_eq_ok.mp h
    rfl
  | cons a as ih =>
    obtain ⟨_, mid, hfirst, hrest⟩ := bind_eq_ok.mp h
    rw [ih hrest, places_declare hfield hfirst]

theorem places_record (hfield : Signature.Collects kind field) (place : Nat) (c : Clause)
    (catalog : Catalog) (name : Predicate) :
    places field (record place c catalog) name =
      places field catalog name ++ if c.states kind name then [place] else [] := by
  rw [places, find?_record]
  by_cases hname : name = c.head.predicate
  · subst hname
    have hold : field ((Table.find? catalog c.head.predicate).getD ⟨c.head.arity, [], []⟩) =
        places field catalog c.head.predicate := by
      unfold places
      cases Table.find? catalog c.head.predicate with
      | none => exact hfield.new c.head.arity
      | some s => rfl
    rw [if_pos rfl, Option.elim_some, hfield.record, hold]
    simp [Clause.states]
  · have hother : c.states kind name = false := by simp [Clause.states, Ne.symm hname]
    rw [if_neg hname, hother, if_neg Bool.false_ne_true, List.append_nil]
    rfl

end Places

theorem keys_declare {a : Atom} {catalog catalog' : Catalog}
    (h : declare a catalog = .ok () catalog') :
    Table.keys catalog' = arrive (Table.keys catalog) a.predicate := by
  rcases declare_eq_ok h with ⟨-, rfl⟩ | ⟨s, hfind, -, rfl⟩
  · exact Table.keys_upsert _ _ _
  · exact (arrive_of_mem (Table.mem_keys_iff.mpr ⟨s, hfind⟩)).symm

theorem keys_declareAll {as : List Atom} {catalog catalog' : Catalog}
    (h : declareAll as catalog = .ok () catalog') :
    Table.keys catalog' = (as.map Atom.predicate).foldl arrive (Table.keys catalog) := by
  induction as generalizing catalog with
  | nil =>
    obtain ⟨-, rfl⟩ := pure_eq_ok.mp h
    rfl
  | cons a as ih =>
    obtain ⟨_, mid, hfirst, hrest⟩ := bind_eq_ok.mp h
    rw [ih hrest, keys_declare hfirst, List.map_cons, List.foldl_cons]

/-- The catalog lists the names in the clauses, and where the clauses stand that state them. -/
structure Lists (catalog : Catalog) (cs : List Clause) : Prop where
  keys : Table.keys catalog = ((Clause.occurrences cs).map Atom.predicate).eraseDups
  places : ∀ {kind field}, Signature.Collects kind field → ∀ name,
    Catalog.places field catalog name = cs.findIdxs (Clause.states kind name)

theorem lists_empty : Lists ∅ [] where
  keys := rfl
  places _ _ := rfl

theorem Lists.enter {catalog catalog' : Catalog} {cs : List Clause} {c : Clause}
    (h : Lists catalog cs) (henter : Catalog.enter cs.length c catalog = .ok () catalog') :
    Lists catalog' (cs ++ [c]) := by
  obtain ⟨-, mid, hdeclare, rfl⟩ := enter_eq_ok_iff.mp henter
  refine ⟨?_, fun hfield name => ?_⟩
  · -- The name of the head is known already, being that of the first atom.
    have hhead : c.head.predicate ∈ Table.keys mid := by
      have harity := (declared_of_declareAll hdeclare).arity?_of_mem c.head c.head_mem_atoms
      obtain ⟨s, hs, -⟩ := Option.map_eq_some_iff.mp harity
      exact Table.mem_keys_iff.mpr ⟨s, hs⟩
    have hoccurrences : Clause.occurrences (cs ++ [c]) = Clause.occurrences cs ++ c.atoms := by
      simp [Clause.occurrences]
    rw [record, Table.keys_upsert_of_mem hhead, keys_declareAll hdeclare, h.keys, hoccurrences,
      List.map_append, eraseDups_append_eq_foldl]
  · rw [places_record hfield, places_declareAll hfield hdeclare, h.places hfield, findIdxs_concat]

end Catalog

/-! ## What the catalog of a program tells -/

namespace Program

/-- The catalog tells which clauses there are. -/
structure Catalogued (p : Program) : Prop where
  /-- The predicates are those that occur, in the order of their first occurrences. -/
  predicates : p.predicates = ((Clause.occurrences p.clauses).map Atom.predicate).eraseDups
  /-- The arity of a predicate is that of all its occurrences. -/
  arity : ∀ name s, (name, s) ∈ p.catalog.entries → ∀ a ∈ Clause.occurrences p.clauses,
    a.predicate = name → a.arity = s.arity
  /-- The places of facts are those of the facts that state the predicate, and ascend. -/
  facts : ∀ name s, (name, s) ∈ p.catalog.entries → s.facts.Pairwise (· < ·) ∧
    ∀ i, i ∈ s.facts ↔ ∃ a, p.clauses[i]? = some (.fact a) ∧ a.predicate = name
  /-- The places of rules are those of the rules that state the predicate, and ascend. -/
  rules : ∀ name s, (name, s) ∈ p.catalog.entries → s.rules.Pairwise (· < ·) ∧
    ∀ i, i ∈ s.rules ↔ ∃ r, p.clauses[i]? = some (.rule r) ∧ r.head.predicate = name
  /-- All these lists together have every place once. -/
  once : (p.catalog.entries.flatMap fun e => e.2.facts ++ e.2.rules).Perm
    (List.range p.clauses.length)
  /-- At every place that is looked up for the rules of a predicate there is a rule. -/
  lookup : ∀ name s, (name, s) ∈ p.catalog.entries →
    s.rules.map (fun i => p.clauses[i]?) = (p.rulesFor name).map fun r => some (.rule r)
  /-- The rules found for a predicate are those that state it, in order. -/
  rulesFor : ∀ name, p.rulesFor name = p.rules.filter fun r => r.head.predicate = name

theorem Reachable.lists {p : Program} (hp : p.Reachable) : p.catalog.Lists p.clauses :=
  Catalog.enterAll_induction (fun h => h.enter) Catalog.lists_empty hp.enterAll_clauses

/-- A list of a signature is found by a search through the clauses. -/
theorem Reachable.field_eq {p : Program} (hp : p.Reachable) {kind : Clause → Bool}
    {field : Signature → List Nat} (hfield : Signature.Collects kind field) {name : Predicate}
    {s : Signature} (hs : (name, s) ∈ p.catalog.entries) :
    field s = p.clauses.findIdxs (Clause.states kind name) := by
  rw [← hp.lists.places hfield, Catalog.places,
    Table.find?_of_mem_entries hp.valid.nodup hs, Option.elim_some]

theorem exists_fact_iff {c? : Option Clause} {name : Predicate} :
    (∃ c, c? = some c ∧ c.fact?.isSome = true ∧ c.head.predicate = name) ↔
      ∃ a, c? = some (.fact a) ∧ a.predicate = name := by
  constructor
  · rintro ⟨c, hc, hfact, hname⟩
    cases c with
    | fact a => exact ⟨a, hc, hname⟩
    | rule r => cases hfact
  · rintro ⟨a, ha, hname⟩
    exact ⟨_, ha, rfl, hname⟩

theorem exists_rule_iff {c? : Option Clause} {name : Predicate} :
    (∃ c, c? = some c ∧ c.rule?.isSome = true ∧ c.head.predicate = name) ↔
      ∃ r, c? = some (.rule r) ∧ r.head.predicate = name := by
  constructor
  · rintro ⟨c, hc, hrule, hname⟩
    cases c with
    | fact a => cases hrule
    | rule r => exact ⟨r, hc, hname⟩
  · rintro ⟨r, hr, hname⟩
    exact ⟨_, hr, rfl, hname⟩

theorem Reachable.mem_facts_iff {p : Program} (hp : p.Reachable) {name : Predicate}
    {s : Signature} (hs : (name, s) ∈ p.catalog.entries) (i : Nat) :
    i ∈ s.facts ↔ ∃ a, p.clauses[i]? = some (.fact a) ∧ a.predicate = name := by
  rw [hp.field_eq Signature.collects_facts hs, Clause.mem_findIdxs_states, exists_fact_iff]

theorem Reachable.mem_rules_iff {p : Program} (hp : p.Reachable) {name : Predicate}
    {s : Signature} (hs : (name, s) ∈ p.catalog.entries) (i : Nat) :
    i ∈ s.rules ↔ ∃ r, p.clauses[i]? = some (.rule r) ∧ r.head.predicate = name := by
  rw [hp.field_eq Signature.collects_rules hs, Clause.mem_findIdxs_states, exists_rule_iff]

/-- What stands at the places of a predicate states that predicate. -/
theorem Reachable.head_of_mem_places {p : Program} (hp : p.Reachable) {name : Predicate}
    {s : Signature} (hs : (name, s) ∈ p.catalog.entries) {i : Nat} (hi : i ∈ s.facts ++ s.rules) :
    ∃ c, p.clauses[i]? = some c ∧ c.head.predicate = name := by
  rcases List.mem_append.mp hi with hi | hi
  · obtain ⟨a, ha, hname⟩ := (hp.mem_facts_iff hs i).mp hi
    exact ⟨_, ha, hname⟩
  · obtain ⟨r, hr, hname⟩ := (hp.mem_rules_iff hs i).mp hi
    exact ⟨_, hr, hname⟩

theorem Reachable.nodup_places {p : Program} (hp : p.Reachable) {name : Predicate}
    {s : Signature} (hs : (name, s) ∈ p.catalog.entries) : (s.facts ++ s.rules).Nodup := by
  have hfacts : s.facts.Nodup := by
    rw [hp.field_eq Signature.collects_facts hs]
    exact List.nodup_findIdxs
  have hrules : s.rules.Nodup := by
    rw [hp.field_eq Signature.collects_rules hs]
    exact List.nodup_findIdxs
  refine List.nodup_append.mpr ⟨hfacts, hrules, fun i hi j hj heq => ?_⟩
  subst heq
  obtain ⟨a, ha, -⟩ := (hp.mem_facts_iff hs i).mp hi
  obtain ⟨r, hr, -⟩ := (hp.mem_rules_iff hs i).mp hj
  rw [ha] at hr
  cases hr

/-- **Every clause is listed once**, under the predicate of its head. -/
theorem Reachable.perm_range {p : Program} (hp : p.Reachable) :
    (p.catalog.entries.flatMap fun e => e.2.facts ++ e.2.rules).Perm
      (List.range p.clauses.length) := by
  have hnodup : (p.catalog.entries.flatMap fun e => e.2.facts ++ e.2.rules).Nodup := by
    refine List.nodup_flatMap.mpr ⟨fun e he => hp.nodup_places he, ?_⟩
    have hkeys : p.catalog.entries.Pairwise fun e e' => e.1 ≠ e'.1 :=
      List.pairwise_map.mp hp.valid.nodup
    refine hkeys.imp_of_mem fun {e e'} he he' hne i hi hi' => ?_
    obtain ⟨c, hc, hname⟩ := hp.head_of_mem_places he hi
    obtain ⟨c', hc', hname'⟩ := hp.head_of_mem_places he' hi'
    rw [hc] at hc'
    rw [← hname, ← hname', Option.some.inj hc'] at hne
    exact hne rfl
  refine (List.perm_ext_iff_of_nodup hnodup List.nodup_range).mpr fun i => ?_
  rw [List.mem_range, List.mem_flatMap]
  constructor
  · rintro ⟨e, he, hi⟩
    obtain ⟨c, hc, -⟩ := hp.head_of_mem_places he hi
    exact (List.getElem?_eq_some_iff.mp hc).1
  · intro hi
    have hc : p.clauses[i]? = some p.clauses[i] := List.getElem?_eq_getElem hi
    have hknown := hp.valid.mem_predicates_iff.mpr
      ⟨_, List.getElem_mem hi, _, Clause.head_mem_atoms _, rfl⟩
    obtain ⟨s, hs⟩ := Table.mem_keys_iff.mp hknown
    have hentry := Table.mem_entries_of_find? hs
    refine ⟨_, hentry, List.mem_append.mpr ?_⟩
    cases hkind : p.clauses[i] with
    | fact a =>
      rw [hkind] at hc hentry
      exact Or.inl ((hp.mem_facts_iff hentry i).mpr ⟨a, hc, rfl⟩)
    | rule r =>
      rw [hkind] at hc hentry
      exact Or.inr ((hp.mem_rules_iff hentry i).mpr ⟨r, hc, rfl⟩)

/-! ## Rules looked up -/

/-- Of the clauses that are rules and state a predicate, the rules are those that state it. -/
theorem filterMap_rule?_filter_states (cs : List Clause) (name : Predicate) :
    (cs.filter (Clause.states (fun c => c.rule?.isSome) name)).filterMap Clause.rule? =
      (cs.filterMap Clause.rule?).filter fun r => r.head.predicate = name := by
  rw [List.filterMap_filter, List.filter_filterMap]
  refine List.filterMap_congr fun c _ => ?_
  cases c with
  | fact a => rfl
  | rule r =>
    by_cases hname : r.head.predicate = name <;>
      simp [Clause.states, Clause.rule?, Clause.head, Option.filter, hname]

theorem map_rule_filterMap_rule? {cs : List Clause} (h : ∀ c ∈ cs, c.rule?.isSome = true) :
    (cs.filterMap Clause.rule?).map Clause.rule = cs := by
  rw [List.map_filterMap]
  refine Eq.trans (List.filterMap_congr fun c hc => ?_) List.filterMap_some
  cases c with
  | fact a => exact absurd (h _ hc) Bool.false_ne_true
  | rule r => rfl

/-- What is looked up for a predicate. -/
theorem Reachable.map_getElem?_rules {p : Program} (hp : p.Reachable) {name : Predicate}
    {s : Signature} (hs : (name, s) ∈ p.catalog.entries) :
    s.rules.map (fun i => p.clauses[i]?) =
      (p.clauses.filter (Clause.states (fun c => c.rule?.isSome) name)).map some := by
  rw [hp.field_eq Signature.collects_rules hs, map_getElem?_findIdxs]

theorem Reachable.rulesFor_eq {p : Program} (hp : p.Reachable) (name : Predicate) :
    p.rulesFor name = p.rules.filter fun r => r.head.predicate = name := by
  unfold rulesFor
  cases hfind : p.catalog.find? name with
  | none =>
    symm
    refine List.filter_eq_nil_iff.mpr fun r hr => ?_
    have hknown := hp.valid.mem_predicates_iff.mpr
      ⟨_, mem_rules.mp hr, _, Clause.head_mem_atoms _, rfl⟩
    rw [decide_eq_true_iff]
    rintro rfl
    exact Table.find?_eq_none_iff.mp hfind hknown
  | some s =>
    have hlookup := hp.map_getElem?_rules (Table.mem_entries_of_find? hfind)
    have hread : s.rules.filterMap (fun place => p.clauses[place]? >>= Clause.rule?) =
        (s.rules.map fun i => p.clauses[i]?).filterMap fun c? => c? >>= Clause.rule? := by
      rw [List.filterMap_map]
      rfl
    show s.rules.filterMap (fun place => p.clauses[place]? >>= Clause.rule?) = _
    rw [hread, hlookup, List.filterMap_map]
    exact filterMap_rule?_filter_states p.clauses name

theorem Reachable.lookup_rules {p : Program} (hp : p.Reachable) {name : Predicate} {s : Signature}
    (hs : (name, s) ∈ p.catalog.entries) :
    s.rules.map (fun i => p.clauses[i]?) = (p.rulesFor name).map fun r => some (.rule r) := by
  have hrules : ∀ c ∈ p.clauses.filter (Clause.states (fun c => c.rule?.isSome) name),
      c.rule?.isSome = true := by
    intro c hc
    have hstates := (List.mem_filter.mp hc).2
    simp only [Clause.states, Bool.and_eq_true] at hstates
    exact hstates.1
  rw [hp.map_getElem?_rules hs, hp.rulesFor_eq, rules, ← filterMap_rule?_filter_states]
  conv_lhs => rw [← map_rule_filterMap_rule? hrules, List.map_map]
  rfl

/-- **The catalog says what the clauses say**, in every program that batches can build, whichever of
them were refused.  Its predicates are those that occur in the clauses, in the order of their first
occurrences, each with the arity of all its occurrences.  The places it lists ascend, and are those
of the facts and of the rules that state the predicate; every clause is listed once.  The rules that
are looked up for a predicate are those that state it, in the order of the program, and there is a
rule at every place that is looked up. -/
theorem Reachable.catalogued {p : Program} (hp : p.Reachable) : p.Catalogued where
  predicates := hp.lists.keys
  arity name s hs a ha hname := by
    have harity := hp.valid.arity?_of_mem_occurrences ha
    rw [hname, Program.arity?, Table.find?_of_mem_entries hp.valid.nodup hs] at harity
    exact (Option.some.inj harity).symm
  facts name s hs := by
    refine ⟨?_, hp.mem_facts_iff hs⟩
    rw [hp.field_eq Signature.collects_facts hs]
    exact List.pairwise_findIdxs
  rules name s hs := by
    refine ⟨?_, hp.mem_rules_iff hs⟩
    rw [hp.field_eq Signature.collects_rules hs]
    exact List.pairwise_findIdxs
  once := hp.perm_range
  lookup _ _ hs := hp.lookup_rules hs
  rulesFor := hp.rulesFor_eq

/-- Where a ferry goes, one can go. -/
def sailing : Clause :=
  .rule ⟨⟨"trip", [.var "X", .var "Y"]⟩, [⟨"ferry", [.var "X", .var "Y"]⟩]⟩

/-- After a batch that was refused for its second clause, the places are counted as if that batch
had not been there. -/
theorem crossing_and_sailing_catalogued :
    let p := finalState (extend [crossing, sailing] (finalState (extend [sailing, outing] {})))
    p.catalog = ⟨[("ferry", ⟨2, [0], []⟩), ("trip", ⟨2, [], [1]⟩)]⟩ ∧ p.Catalogued :=
  ⟨rfl, Reachable.catalogued (.extend _ (.extend _ .empty))⟩

end Program

end Datalog
