import Datalog.Proofs.Program.Batches
import Datalog.Proofs.Program.Shuffle

/-!
# What is accepted, and what is reported otherwise

A list of clauses is accepted exactly if it is well formed: every predicate has one arity, facts
have no variables, and rules bind the variables of their heads.  Otherwise the first clause is
reported with which the clauses so far are no longer well formed, and of that clause the first
violation: its own variables come first, and then the arities of its atoms
(`Program.reports_first_violation`).

* `Clause.Safe`, `WellFormedClauses`: the conditions.
* `firstArity?`: the arity with which a predicate first occurs.
* `Clause.Violates`: the report that a clause deserves, in a list of clauses.
* `Catalog.Knows`: a catalog has the arities of the first occurrences.

## Why the catalog need not be complete

The arities are compared one by one, with a catalog that changes at every new predicate, also within
a clause.  All that matters of it is that it knows the first occurrences so far.  The first
occurrence of a predicate stays the first when further atoms follow, so what an atom is compared
with can be read off the whole list of clauses, in which neither the place nor the moment of the
comparison shows (`Catalog.Knows.declareAll_eq_error_iff`).
-/

namespace Datalog

/-! ## The conditions -/

/-- All atoms of clauses, in order; of each clause the head comes first. -/
def Clause.occurrences (cs : List Clause) : List Atom := cs.flatMap Clause.atoms

theorem Clause.mem_occurrences_iff {cs : List Clause} {a : Atom} :
    a ∈ occurrences cs ↔ ∃ c ∈ cs, a ∈ c.atoms := List.mem_flatMap

/-- Clauses that make sense together. -/
structure WellFormedClauses (cs : List Clause) : Prop where
  /-- Every predicate has one arity. -/
  arity : ∀ a ∈ Clause.occurrences cs, ∀ b ∈ Clause.occurrences cs,
    a.predicate = b.predicate → a.arity = b.arity
  /-- Every clause makes sense on its own. -/
  safe : ∀ c ∈ cs, c.Safe

/-- The arity with which a predicate first occurs. -/
def firstArity? (as : List Atom) (name : Predicate) : Option Nat :=
  (as.find? fun a => a.predicate = name).map Atom.arity

/-- What is to be reported of a clause, in a list of clauses: the first variable of a fact; or else
the first variable of a head that the body does not bind; or else the first atom whose arity is not
that of the first occurrence of its predicate. -/
inductive Clause.Violates (cs : List Clause) : Clause → IllFormed → Prop where
  | ungrounded {a : Atom} {x : Variable} {others : List Variable} :
      a.vars = x :: others → Violates cs (.fact a) (.ungroundedFact a.predicate x 0)
  | unbound {r : Rule} {x : Variable} {before after : List Variable} :
      r.head.vars = before ++ x :: after → (∀ y ∈ before, y ∈ r.bodyVars) → x ∉ r.bodyVars →
        Violates cs (.rule r) (.unboundHeadVariable r.head.predicate x)
  | arity {c : Clause} {a : Atom} {k : Nat} {before after : List Atom} :
      c.Safe → c.atoms = before ++ a :: after →
      (∀ b ∈ before, firstArity? (occurrences cs) b.predicate = some b.arity) →
      firstArity? (occurrences cs) a.predicate = some k → k ≠ a.arity →
        Violates cs c (.arityMismatch a.predicate k a.arity)

theorem WellFormedClauses.of_front {cs ds : List Clause} (h : WellFormedClauses ds)
    (hcs : cs <+: ds) : WellFormedClauses cs := by
  have hsubset : ∀ a ∈ Clause.occurrences cs, a ∈ Clause.occurrences ds := by
    intro a ha
    obtain ⟨c, hc, hac⟩ := Clause.mem_occurrences_iff.mp ha
    exact Clause.mem_occurrences_iff.mpr ⟨c, hcs.subset hc, hac⟩
  exact ⟨fun a ha b hb => h.arity a (hsubset a ha) b (hsubset b hb),
    fun c hc => h.safe c (hcs.subset hc)⟩

/-! ## A clause on its own -/

/-- What a clause is refused for on its own, in whatever list it stands. -/
theorem Clause.check_eq_error_iff {c : Clause} {e : IllFormed} (cs : List Clause) :
    c.check = .error e ↔ ¬ c.Safe ∧ c.Violates cs e := by
  constructor
  · intro h
    refine ⟨fun hsafe => ?_, ?_⟩
    · rw [check_eq_ok_iff.mpr hsafe] at h
      cases h
    · cases c with
      | fact a =>
        unfold check at h
        simp only at h
        split at h
        · cases h
        · next hvars =>
          cases h
          exact .ungrounded hvars
      | rule r =>
        unfold check at h
        simp only at h
        split at h
        · cases h
        · next hfind =>
          cases h
          obtain ⟨hx, before, after, hvars, hbefore⟩ := List.find?_eq_some_iff_append.mp hfind
          refine .unbound hvars (fun y hy => ?_) (by simpa using hx)
          simpa using hbefore y hy
  · rintro ⟨hnot, h⟩
    cases h with
    | ungrounded hvars => simp [check, hvars]
    | @unbound r x before after hvars hbefore hx =>
      have hfind : (r.head.vars.find? fun x => x ∉ r.bodyVars) = some x := by
        refine List.find?_eq_some_iff_append.mpr ⟨by simpa using hx, before, after, hvars, ?_⟩
        intro y hy
        simpa using hbefore y hy
      simp only [check, hfind]
    | arity hsafe => exact absurd hsafe hnot

/-! ## First occurrences -/

theorem firstArity?_append (as bs : List Atom) (name : Predicate) :
    firstArity? (as ++ bs) name = (firstArity? as name).or (firstArity? bs name) := by
  unfold firstArity?
  rw [List.find?_append]
  cases as.find? fun a => a.predicate = name <;> rfl

theorem firstArity?_singleton (a : Atom) (name : Predicate) :
    firstArity? [a] name = if a.predicate = name then some a.arity else none := by
  unfold firstArity?
  rw [List.find?_singleton]
  by_cases h : a.predicate = name <;> simp [h]

/-- What occurs first does so whatever follows. -/
theorem firstArity?_of_front {as bs : List Atom} (h : as <+: bs) {name : Predicate} {k : Nat}
    (hk : firstArity? as name = some k) : firstArity? bs name = some k := by
  obtain ⟨rest, rfl⟩ := h
  rw [firstArity?_append, hk]
  rfl

theorem exists_of_firstArity? {as : List Atom} {name : Predicate} {k : Nat}
    (h : firstArity? as name = some k) : ∃ a ∈ as, a.predicate = name ∧ a.arity = k := by
  obtain ⟨a, ha, harity⟩ := Option.map_eq_some_iff.mp h
  exact ⟨a, List.mem_of_find?_eq_some ha, by simpa using List.find?_some ha, harity⟩

theorem exists_firstArity? {as : List Atom} {a : Atom} (h : a ∈ as) :
    ∃ k, firstArity? as a.predicate = some k := by
  cases hfind : as.find? fun b => b.predicate = a.predicate with
  | none => simpa using List.find?_eq_none.mp hfind a h
  | some b => exact ⟨b.arity, by rw [firstArity?, hfind]; rfl⟩

theorem WellFormedClauses.firstArity? {cs : List Clause} (h : WellFormedClauses cs) {a : Atom}
    (ha : a ∈ Clause.occurrences cs) :
    Datalog.firstArity? (Clause.occurrences cs) a.predicate = some a.arity := by
  obtain ⟨k, hk⟩ := exists_firstArity? ha
  obtain ⟨b, hb, hpredicate, rfl⟩ := exists_of_firstArity? hk
  rw [hk, h.arity a ha b hb hpredicate.symm]

/-! ## Entering a clause -/

namespace Catalog

/-- A clause is refused for what it is, or else for the arities of its atoms. -/
theorem enter_eq_error_iff {place : Nat} {c : Clause} {catalog : Catalog} {e : IllFormed} :
    (∃ catalog', enter place c catalog = .error e catalog') ↔ c.check = .error e ∨
      c.check = .ok () ∧ ∃ catalog', declareAll c.atoms catalog = .error e catalog' := by
  unfold enter
  cases c.check with
  | error e' =>
    show (∃ catalog', EStateM.Result.error e' catalog = .error e catalog') ↔ _
    simp
  | ok u =>
    simp only [reduceCtorEq, false_or, true_and]
    constructor
    · rintro ⟨catalog', h⟩
      rcases bind_eq_error.mp h with h | ⟨_, mid, -, h⟩
      · exact ⟨catalog', h⟩
      · cases h
    · rintro ⟨catalog', h⟩
      exact ⟨catalog', bind_eq_error.mpr (Or.inl h)⟩

/-- Clauses are refused for the first of them that cannot be entered behind those before it. -/
theorem enterAll_eq_error_iff {place : Nat} {cs : List Clause} {catalog : Catalog}
    {e : IllFormed} :
    (∃ catalog', enterAll place cs catalog = .error e catalog') ↔
      ∃ front c back mid, cs = front ++ c :: back ∧ enterAll place front catalog = .ok () mid ∧
        ∃ catalog', enter (place + front.length) c mid = .error e catalog' := by
  induction cs generalizing place catalog with
  | nil =>
    constructor
    · rintro ⟨catalog', h⟩
      cases h
    · rintro ⟨front, c, back, mid, h, -⟩
      simp at h
  | cons c cs ih =>
    simp only [enterAll, bind_eq_error, exists_or]
    constructor
    · rintro (h | ⟨catalog', _, mid, hfirst, hrest⟩)
      · exact ⟨[], c, cs, catalog, rfl, rfl, h⟩
      · obtain ⟨front, d, back, mid', rfl, hfront, hd⟩ := ih.mp ⟨catalog', hrest⟩
        refine ⟨c :: front, d, back, mid', rfl, bind_eq_ok.mpr ⟨(), mid, hfirst, hfront⟩, ?_⟩
        rw [List.length_cons, ← Nat.add_assoc, Nat.add_right_comm]
        exact hd
    · rintro ⟨front, d, back, mid', heq, hfront, hd⟩
      cases front with
      | nil =>
        obtain ⟨rfl, rfl⟩ := List.cons.inj heq
        obtain ⟨-, rfl⟩ := pure_eq_ok.mp hfront
        exact Or.inl hd
      | cons c' front =>
        obtain ⟨rfl, rfl⟩ := List.cons.inj heq
        obtain ⟨_, mid, hfirst, hfront⟩ := bind_eq_ok.mp hfront
        rw [List.length_cons, ← Nat.add_assoc, Nat.add_right_comm] at hd
        obtain ⟨catalog', hrest⟩ := ih.mpr ⟨front, d, back, mid', rfl, hfront, hd⟩
        exact Or.inr ⟨catalog', (), mid, hfirst, hrest⟩

/-- The catalog has the arities with which predicates first occur, and no others. -/
def Knows (as : List Atom) (catalog : Catalog) : Prop :=
  ∀ name, arity? catalog name = firstArity? as name

theorem Describes.knows {catalog : Catalog} {cs : List Clause} (h : Describes catalog cs) :
    Knows (Clause.occurrences cs) catalog := by
  intro name
  cases hfirst : firstArity? (Clause.occurrences cs) name with
  | some k =>
    obtain ⟨a, ha, rfl, rfl⟩ := exists_of_firstArity? hfirst
    obtain ⟨c, hc, hac⟩ := Clause.mem_occurrences_iff.mp ha
    exact h.arity? c hc a hac
  | none =>
    rw [Catalog.arity?, Option.map_eq_none_iff, Table.find?_eq_none_iff]
    intro hname
    obtain ⟨c, hc, a, ha, rfl⟩ := h.occurs name hname
    obtain ⟨k, hk⟩ := exists_firstArity? (Clause.mem_occurrences_iff.mpr ⟨c, hc, ha⟩)
    exact absurd (hfirst.symm.trans hk) (by simp)

/-- An occurrence is compared with the first one, which it may be itself. -/
theorem Knows.declare_cases {as : List Atom} {catalog : Catalog} (h : Knows as catalog) (a : Atom) :
    (firstArity? (as ++ [a]) a.predicate = some a.arity ∧
      ∃ mid, declare a catalog = .ok () mid ∧ Knows (as ++ [a]) mid) ∨
    ∃ k, firstArity? (as ++ [a]) a.predicate = some k ∧ k ≠ a.arity ∧
      declare a catalog = .error (.arityMismatch a.predicate k a.arity) catalog := by
  have hknown := h a.predicate
  rw [arity?] at hknown
  simp only [firstArity?_append, firstArity?_singleton, if_pos, ← hknown]
  unfold declare
  cases hfind : Table.find? catalog a.predicate with
  | none =>
    rw [hfind] at hknown
    refine Or.inl ⟨rfl, _, rfl, fun name => ?_⟩
    rw [firstArity?_append, firstArity?_singleton, arity?, Table.find?_insertNew, hfind]
    by_cases hname : name = a.predicate
    · subst hname
      rw [← hknown]
      simp
    · rw [if_neg hname, if_neg (Ne.symm hname), Option.or_none]
      exact h name
  | some s =>
    rw [hfind] at hknown
    by_cases hs : s.arity = a.arity
    · refine Or.inl ⟨by simp [hs], catalog, if_pos hs, fun name => ?_⟩
      rw [firstArity?_append, firstArity?_singleton, h name]
      by_cases hname : a.predicate = name
      · subst hname
        rw [← hknown]
        rfl
      · rw [if_neg hname, Option.or_none]
    · exact Or.inr ⟨s.arity, rfl, hs, if_neg hs⟩

/-- **The first occurrence that disagrees is reported**, and what it disagrees with is the first
occurrence in any list that begins with the atoms so far. -/
theorem Knows.declareAll_eq_error_iff {as bs all : List Atom} {catalog : Catalog}
    (h : Knows as catalog) (hall : as ++ bs <+: all) {e : IllFormed} :
    (∃ catalog', declareAll bs catalog = .error e catalog') ↔
      ∃ before a after k, bs = before ++ a :: after ∧
        (∀ b ∈ before, firstArity? all b.predicate = some b.arity) ∧
        firstArity? all a.predicate = some k ∧ k ≠ a.arity ∧
          e = .arityMismatch a.predicate k a.arity := by
  induction bs generalizing as catalog with
  | nil =>
    constructor
    · rintro ⟨catalog', hrun⟩
      cases hrun
    · rintro ⟨before, a, after, k, heq, -⟩
      simp at heq
  | cons b bs ih =>
    rw [List.append_cons] at hall
    have hfirst : ∀ {k}, firstArity? (as ++ [b]) b.predicate = some k →
        firstArity? all b.predicate = some k :=
      firstArity?_of_front ((List.prefix_append _ _).trans hall)
    rw [declareAll]
    rcases h.declare_cases b with ⟨hb, mid, hdeclare, hmid⟩ | ⟨k, hk, hne, hdeclare⟩
    · rw [bind_of_eq_ok _ hdeclare, ih hmid hall]
      constructor
      · rintro ⟨before, a, after, k, rfl, hbefore, ha⟩
        exact ⟨b :: before, a, after, k, rfl, List.forall_mem_cons.mpr ⟨hfirst hb, hbefore⟩, ha⟩
      · rintro ⟨before, a, after, k, heq, hbefore, hk, hne, he⟩
        cases before with
        | nil =>
          obtain ⟨rfl, rfl⟩ := List.cons.inj heq
          exact absurd (Option.some.inj (hk.symm.trans (hfirst hb))) hne
        | cons b' before =>
          obtain ⟨rfl, rfl⟩ := List.cons.inj heq
          exact ⟨before, a, after, k, rfl, (List.forall_mem_cons.mp hbefore).2, hk, hne, he⟩
    · rw [bind_of_eq_error _ hdeclare]
      constructor
      · rintro ⟨catalog', herror⟩
        obtain ⟨rfl, -⟩ := EStateM.Result.error.inj herror
        exact ⟨[], b, bs, k, rfl, by simp, hfirst hk, hne, rfl⟩
      · rintro ⟨before, a, after, k', heq, hbefore, hk', -, rfl⟩
        cases before with
        | nil =>
          obtain ⟨rfl, rfl⟩ := List.cons.inj heq
          rw [Option.some.inj (hk'.symm.trans (hfirst hk))]
          exact ⟨catalog, rfl⟩
        | cons b' before =>
          obtain ⟨rfl, rfl⟩ := List.cons.inj heq
          have hb := (List.forall_mem_cons.mp hbefore).1
          exact absurd (Option.some.inj ((hfirst hk).symm.trans hb)) hne

/-- **A clause is refused for its violation**, behind clauses that have been entered. -/
theorem Describes.enter_eq_error_iff {catalog : Catalog} {front back : List Clause} {c : Clause}
    (h : Describes catalog front) (place : Nat) {e : IllFormed} :
    (∃ catalog', Catalog.enter place c catalog = .error e catalog') ↔
      c.Violates (front ++ c :: back) e := by
  have hall : Clause.occurrences front ++ c.atoms <+: Clause.occurrences (front ++ c :: back) := by
    refine ⟨Clause.occurrences back, ?_⟩
    simp [Clause.occurrences]
  rw [Catalog.enter_eq_error_iff, Clause.check_eq_error_iff (front ++ c :: back),
    Clause.check_eq_ok_iff, h.knows.declareAll_eq_error_iff hall]
  constructor
  · rintro (⟨-, hviolates⟩ | ⟨hsafe, before, a, after, k, hatoms, hbefore, hk, hne, rfl⟩)
    · exact hviolates
    · exact .arity hsafe hatoms hbefore hk hne
  · intro hviolates
    by_cases hsafe : c.Safe
    · refine Or.inr ⟨hsafe, ?_⟩
      cases hviolates with
      | ungrounded hvars => exact absurd (hvars.symm.trans hsafe) (List.cons_ne_nil _ _)
      | @unbound r x before after hvars _ hx =>
        exact absurd (hsafe x (hvars ▸ List.mem_append_right _ List.mem_cons_self)) hx
      | arity _ hatoms hbefore hk hne => exact ⟨_, _, _, _, hatoms, hbefore, hk, hne, rfl⟩
    · exact Or.inl ⟨hsafe, hviolates⟩

end Catalog

/-! ## Lists of clauses -/

namespace Program

theorem Valid.arity?_of_mem_occurrences {p : Program} (hp : p.Valid) {a : Atom}
    (ha : a ∈ Clause.occurrences p.clauses) : p.arity? a.predicate = some a.arity := by
  obtain ⟨c, hc, hac⟩ := Clause.mem_occurrences_iff.mp ha
  exact hp.arity?_of_mem hc hac

theorem Valid.wellFormedClauses {p : Program} (hp : p.Valid) : WellFormedClauses p.clauses where
  arity a ha b hb heq := by
    have harity := hp.arity?_of_mem_occurrences ha
    rw [heq, hp.arity?_of_mem_occurrences hb] at harity
    exact (Option.some.inj harity).symm
  safe c hc := Clause.check_eq_ok_iff.mp (hp.check c hc)

theorem ofClauses_eq_ok_iff {cs : List Clause} {p : Program} :
    ofClauses cs = .ok p ↔
      ∃ catalog, Catalog.enterAll 0 cs ∅ = .ok () catalog ∧ p = ⟨cs, catalog⟩ := by
  have hextend : extend cs {} = .ok () p ↔
      ∃ catalog, Catalog.enterAll 0 cs ∅ = .ok () catalog ∧ p = ⟨cs, catalog⟩ := extend_eq_ok_iff
  refine Iff.trans ?_ hextend
  unfold ofClauses
  cases extend cs {} <;> simp

theorem ofClauses_eq_error_iff {cs : List Clause} {e : IllFormed} :
    ofClauses cs = .error e ↔ ∃ catalog, Catalog.enterAll 0 cs ∅ = .error e catalog := by
  have hextend : extend cs {} = .error e {} ↔
      _ ∧ ∃ catalog, Catalog.enterAll 0 cs ∅ = .error e catalog := valid_empty.extend_eq_error_iff
  refine Iff.trans ?_ (hextend.trans (and_iff_right rfl))
  unfold ofClauses
  cases hrun : extend cs {} with
  | ok u p => simp
  | error e' p =>
    rw [extend_error valid_empty hrun]
    simp

/-- Clauses can be entered exactly if they are well formed. -/
theorem exists_ofClauses_iff {cs : List Clause} :
    (∃ p, ofClauses cs = .ok p) ↔ WellFormedClauses cs := by
  constructor
  · rintro ⟨p, hp⟩
    obtain ⟨hreach, rfl⟩ := reachable_of_ofClauses hp
    exact hreach.valid.wellFormedClauses
  · intro h
    have hempty : Catalog.Follows (firstArity? (Clause.occurrences cs)) ∅ :=
      fun name k hk => by cases hk
    obtain ⟨catalog, henter⟩ := hempty.enterAll 0
      (fun c hc => Clause.check_eq_ok_iff.mpr (h.safe c hc))
      (fun c hc a ha => h.firstArity? (Clause.mem_occurrences_iff.mpr ⟨c, hc, ha⟩))
    exact ⟨⟨cs, catalog⟩, ofClauses_eq_ok_iff.mpr ⟨catalog, henter, rfl⟩⟩

/-- Clauses are refused for the violation of the first clause that cannot follow those before. -/
theorem ofClauses_eq_error_iff_violates {cs : List Clause} {e : IllFormed} :
    ofClauses cs = .error e ↔ ∃ front c back, cs = front ++ c :: back ∧
      WellFormedClauses front ∧ ¬ WellFormedClauses (front ++ [c]) ∧ c.Violates cs e := by
  have hdescribes : ∀ {front mid}, Catalog.enterAll 0 front ∅ = .ok () mid →
      Catalog.Describes mid front := fun henter => valid_empty.enterAll henter
  rw [ofClauses_eq_error_iff, Catalog.enterAll_eq_error_iff]
  constructor
  · rintro ⟨front, c, back, mid, rfl, hfront, hc⟩
    have hmid := hdescribes hfront
    refine ⟨front, c, back, rfl, exists_ofClauses_iff.mp
      ⟨_, ofClauses_eq_ok_iff.mpr ⟨mid, hfront, rfl⟩⟩, fun hwf => ?_,
      (hmid.enter_eq_error_iff _).mp hc⟩
    obtain ⟨p, hp⟩ := exists_ofClauses_iff.mpr hwf
    have herror : ofClauses (front ++ [c]) = .error e := ofClauses_eq_error_iff.mpr
      (Catalog.enterAll_eq_error_iff.mpr ⟨front, c, [], mid, rfl, hfront, hc⟩)
    rw [hp] at herror
    cases herror
  · rintro ⟨front, c, back, rfl, hfront, -, hviolates⟩
    obtain ⟨p, hp⟩ := exists_ofClauses_iff.mpr hfront
    obtain ⟨mid, henter, -⟩ := ofClauses_eq_ok_iff.mp hp
    exact ⟨front, c, back, mid, rfl, henter,
      ((hdescribes henter).enter_eq_error_iff _).mpr hviolates⟩

/-- The clause with which clauses stop to be well formed stands behind a front that is. -/
theorem exists_front_iff {cs : List Clause} {k : Nat} {c : Clause} :
    (IsLeast {k | ¬ WellFormedClauses (cs.take (k + 1))} k ∧ cs[k]? = some c) ↔
      ∃ front back, cs = front ++ c :: back ∧ front.length = k ∧
        WellFormedClauses front ∧ ¬ WellFormedClauses (front ++ [c]) := by
  constructor
  · rintro ⟨⟨hk, hleast⟩, hc⟩
    obtain ⟨hlt, rfl⟩ := List.getElem?_eq_some_iff.mp hc
    refine ⟨cs.take k, cs.drop (k + 1), ?_, List.length_take_of_le hlt.le, ?_, ?_⟩
    · rw [List.getElem_cons_drop, List.take_append_drop]
    · cases k with
      | zero => exact ⟨by simp [Clause.occurrences], by simp⟩
      | succ k => exact by_contra fun hnot => absurd (hleast hnot) (by simp)
    · rw [List.take_append_getElem hlt]
      exact hk
  · rintro ⟨front, back, rfl, rfl, hfront, hnot⟩
    have htake : (front ++ c :: back).take (front.length + 1) = front ++ [c] := by
      rw [List.append_cons]
      exact List.take_left' (by simp)
    refine ⟨⟨by rw [Set.mem_ofPred_eq, htake]; exact hnot, fun j hj => ?_⟩, by simp⟩
    by_contra hlt
    have htaken : (front ++ c :: back).take (j + 1) <+: front := by
      rw [List.take_append_of_le_length (by omega)]
      exact List.take_prefix _ _
    exact hj (hfront.of_front htaken)

/-- **Exactly the well-formed lists of clauses are accepted, and otherwise the first violation is
reported.**  A program can be made of clauses if every predicate has one arity in all their atoms,
facts are ground, and every head variable of a rule occurs in its body.  If not, let `k` be the
first place such that the clauses up to it are not well formed.  The report is what the clause there
violates: it is a fact, and has a variable, of which the first is named; or else it is a rule, and
the first head variable is named that the body lacks; or else the first of its atoms is named, the
head before the body, whose arity is not that of the first occurrence of its predicate, with that
arity as the one expected. -/
theorem reports_first_violation (cs : List Clause) :
    ((∃ p, ofClauses cs = .ok p) ↔ WellFormedClauses cs) ∧
    ∀ e, ofClauses cs = .error e ↔ ∃ k c,
      IsLeast {k | ¬ WellFormedClauses (cs.take (k + 1))} k ∧ cs[k]? = some c ∧
        c.Violates cs e := by
  refine ⟨exists_ofClauses_iff, fun e => ofClauses_eq_error_iff_violates.trans ?_⟩
  constructor
  · rintro ⟨front, c, back, heq, hfront, hnot, hviolates⟩
    obtain ⟨hleast, hc⟩ := exists_front_iff.mpr ⟨front, back, heq, rfl, hfront, hnot⟩
    exact ⟨front.length, c, hleast, hc, hviolates⟩
  · rintro ⟨k, c, hleast, hc, hviolates⟩
    obtain ⟨front, back, heq, -, hfront, hnot⟩ := exists_front_iff.mp ⟨hleast, hc⟩
    exact ⟨front, c, back, heq, hfront, hnot, hviolates⟩

/-- The variables of a clause are reported before its arities. -/
example : ofClauses [.fact ⟨"port", [.const "bari"]⟩,
    .rule ⟨⟨"port", [.var "X", .var "Y"]⟩, [⟨"ferry", [.var "X"]⟩]⟩] =
      .error (.unboundHeadVariable "port" "Y") := by decide

end Program

end Datalog
