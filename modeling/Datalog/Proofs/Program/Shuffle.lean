import Datalog.Proofs.LeastModel

/-!
# Clauses in another order

Clauses are *shuffled* by putting them into another order and the body atoms of each rule into
another order.  What a program says does not depend on either order: the shuffled clauses are
accepted as well (`Shuffled.exists_ofClauses`), and the program of these has the same predicates,
arities, dependencies, facts and least models.

* `Rule.Rearranged`, `Clause.Rearranged`, `Shuffled`: the same rule, clause and list of clauses, but
  for the order.
* `Program.SameClauses`: two programs whose clauses are the same but for the order.

## Why a list of clauses is accepted in any order

Clauses are checked one by one, against the arities that the clauses before have fixed.  So whether
a clause is refused depends on what comes before it; but in a list that is accepted in some order,
every predicate has one arity all over, and then no clause can be the first to disagree.
-/

namespace Datalog

/-- The same rule, but for the order of its body. -/
structure Rule.Rearranged (r r' : Rule) : Prop where
  head : r.head = r'.head
  body : r.body.Perm r'.body

/-- The same clause, but for the order of its body. -/
inductive Clause.Rearranged : Clause → Clause → Prop where
  | fact (a : Atom) : Clause.Rearranged (.fact a) (.fact a)
  | rule {r r' : Rule} : r.Rearranged r' → Clause.Rearranged (.rule r) (.rule r')

/-- The same clauses, but for their order and the order of their bodies. -/
def Shuffled (cs ds : List Clause) : Prop :=
  ∃ es, cs.Perm es ∧ List.Forall₂ Clause.Rearranged es ds

namespace Rule.Rearranged

variable {r r' : Rule}

theorem refl (r : Rule) : r.Rearranged r := ⟨rfl, .refl _⟩

theorem symm (h : r.Rearranged r') : r'.Rearranged r := ⟨h.head.symm, h.body.symm⟩

theorem consequences (h : r.Rearranged r') (I : Interpretation) :
    r.consequences I = r'.consequences I := by
  unfold Rule.consequences
  simp only [h.head, h.body.mem_iff]

theorem holdsIn (h : r.Rearranged r') {I : Interpretation} (hI : r.HoldsIn I) : r'.HoldsIn I := by
  rw [Rule.holdsIn_iff] at hI ⊢
  rw [← h.consequences]
  exact hI

end Rule.Rearranged

namespace Clause.Rearranged

variable {c d : Clause}

theorem refl (c : Clause) : c.Rearranged c := by
  cases c with
  | fact a => exact .fact a
  | rule r => exact .rule (.refl r)

theorem symm (h : c.Rearranged d) : d.Rearranged c := by
  cases h with
  | fact a => exact .fact a
  | rule h => exact .rule h.symm

theorem perm_atoms (h : c.Rearranged d) : c.atoms.Perm d.atoms := by
  cases h with
  | fact a => exact .refl _
  | @rule r r' h =>
    show (r.head :: r.body).Perm (r'.head :: r'.body)
    rw [h.head]
    exact h.body.cons _

theorem holdsIn (h : c.Rearranged d) {I : Interpretation} (hI : c.HoldsIn I) : d.HoldsIn I := by
  cases h with
  | fact a => exact hI
  | rule h => exact Rule.Rearranged.holdsIn h hI

/-- The order of the body does not matter for the check of a clause. -/
theorem check_eq_ok (h : c.Rearranged d) (hcheck : c.check = .ok ()) : d.check = .ok () := by
  cases h with
  | fact a => exact hcheck
  | @rule r r' h =>
    have hvars : ∀ x, x ∈ r.bodyVars ↔ x ∈ r'.bodyVars :=
      fun x => (h.body.flatMap_right Atom.vars).mem_iff
    rw [check_eq_ok_iff] at hcheck ⊢
    intro x hx
    rw [← h.head] at hx
    exact (hvars x).mp (hcheck x hx)

end Clause.Rearranged

namespace Shuffled

variable {cs ds : List Clause}

theorem forth (h : Shuffled cs ds) {c : Clause} (hc : c ∈ cs) : ∃ d ∈ ds, c.Rearranged d := by
  obtain ⟨es, hperm, hall⟩ := h
  obtain ⟨i, hi⟩ := List.mem_iff_getElem?.mp (hperm.mem_iff.mp hc)
  obtain ⟨hlt, rfl⟩ := List.getElem?_eq_some_iff.mp hi
  obtain ⟨hlength, hget⟩ := List.forall₂_iff_get.mp hall
  exact ⟨_, List.get_mem _ ⟨i, hlength ▸ hlt⟩, hget i hlt (hlength ▸ hlt)⟩

theorem back (h : Shuffled cs ds) {d : Clause} (hd : d ∈ ds) : ∃ c ∈ cs, c.Rearranged d := by
  obtain ⟨es, hperm, hall⟩ := h
  obtain ⟨i, hi⟩ := List.mem_iff_getElem?.mp hd
  obtain ⟨hlt, rfl⟩ := List.getElem?_eq_some_iff.mp hi
  obtain ⟨hlength, hget⟩ := List.forall₂_iff_get.mp hall
  exact ⟨_, hperm.mem_iff.mpr (List.get_mem _ ⟨i, hlength.symm ▸ hlt⟩),
    hget i (hlength.symm ▸ hlt) hlt⟩

end Shuffled

/-! ## Clauses that are accepted -/

namespace Catalog

/-- The arities that the catalog knows are those of a function. -/
def Follows (arityOf : Predicate → Option Nat) (catalog : Catalog) : Prop :=
  ∀ name k, arity? catalog name = some k → arityOf name = some k

variable {arityOf : Predicate → Option Nat} {catalog : Catalog}

theorem Follows.declare (h : Follows arityOf catalog) {a : Atom}
    (ha : arityOf a.predicate = some a.arity) :
    ∃ catalog', Catalog.declare a catalog = .ok () catalog' ∧ Follows arityOf catalog' := by
  unfold Catalog.declare
  cases hfind : Table.find? catalog a.predicate with
  | none =>
    refine ⟨_, rfl, fun name k hk => ?_⟩
    rw [arity?, Table.find?_insertNew, hfind] at hk
    by_cases hname : name = a.predicate
    · rw [if_pos hname] at hk
      rw [hname, ha]
      exact hk
    · rw [if_neg hname] at hk
      exact h name k hk
  | some s =>
    have hs : arity? catalog a.predicate = some s.arity := by
      rw [arity?, hfind]
      rfl
    have harity := h _ _ hs
    rw [ha] at harity
    exact ⟨catalog, if_pos (Option.some.inj harity).symm, h⟩

theorem Follows.declareAll (h : Follows arityOf catalog) {as : List Atom}
    (has : ∀ a ∈ as, arityOf a.predicate = some a.arity) :
    ∃ catalog', Catalog.declareAll as catalog = .ok () catalog' ∧ Follows arityOf catalog' := by
  induction as generalizing catalog with
  | nil => exact ⟨catalog, rfl, h⟩
  | cons a as ih =>
    obtain ⟨mid, hfirst, hmid⟩ := h.declare (has a List.mem_cons_self)
    rw [Catalog.declareAll, bind_of_eq_ok _ hfirst]
    exact ih hmid fun b hb => has b (List.mem_cons_of_mem a hb)

theorem Follows.record (h : Follows arityOf catalog) (place : Nat) {c : Clause}
    (hc : arityOf c.head.predicate = some c.head.arity) :
    Follows arityOf (Catalog.record place c catalog) := by
  intro name k hk
  rw [arity?, find?_record] at hk
  by_cases hname : name = c.head.predicate
  · rw [if_pos hname, Option.map_some, arity_record] at hk
    rw [hname]
    cases hfind : Table.find? catalog c.head.predicate with
    | none =>
      rw [hfind] at hk
      rw [hc]
      exact hk
    | some s =>
      rw [hfind] at hk
      refine h _ _ ?_
      rw [arity?, hfind]
      exact hk
  · rw [if_neg hname] at hk
    exact h name k hk

theorem Follows.enterAll (h : Follows arityOf catalog) (place : Nat) {cs : List Clause}
    (hcheck : ∀ c ∈ cs, c.check = .ok ())
    (harity : ∀ c ∈ cs, ∀ a ∈ c.atoms, arityOf a.predicate = some a.arity) :
    ∃ catalog', Catalog.enterAll place cs catalog = .ok () catalog' := by
  induction cs generalizing place catalog with
  | nil => exact ⟨catalog, rfl⟩
  | cons c cs ih =>
    obtain ⟨mid, hdeclare, hmid⟩ := h.declareAll (harity c List.mem_cons_self)
    have henter : Catalog.enter place c catalog = .ok () (Catalog.record place c mid) :=
      enter_eq_ok_iff.mpr ⟨hcheck c List.mem_cons_self, mid, hdeclare, rfl⟩
    rw [Catalog.enterAll, bind_of_eq_ok _ henter]
    exact ih (hmid.record place (harity c List.mem_cons_self _ c.head_mem_atoms)) (place + 1)
      (fun d hd => hcheck d (List.mem_cons_of_mem c hd))
      fun d hd => harity d (List.mem_cons_of_mem c hd)

end Catalog

/-- **Shuffled clauses are accepted.** -/
theorem Shuffled.exists_ofClauses {p : Program} (hp : p.Valid) {cs : List Clause}
    (h : Shuffled p.clauses cs) : ∃ p', Program.ofClauses cs = .ok p' := by
  have hcheck : ∀ d ∈ cs, d.check = .ok () := by
    intro d hd
    obtain ⟨c, hc, hcd⟩ := h.back hd
    exact hcd.check_eq_ok (hp.check c hc)
  have harity : ∀ d ∈ cs, ∀ a ∈ d.atoms, p.arity? a.predicate = some a.arity := by
    intro d hd a ha
    obtain ⟨c, hc, hcd⟩ := h.back hd
    exact hp.arity?_of_mem hc (hcd.perm_atoms.mem_iff.mpr ha)
  -- The arities of the given program serve for the other order from its first clause on.
  have hempty : Catalog.Follows p.arity? ∅ := fun name k hk => by cases hk
  obtain ⟨catalog, henter⟩ := hempty.enterAll 0 hcheck harity
  have henter' : Catalog.enterAll ({} : Program).clauses.length cs ({} : Program).catalog =
      .ok () catalog := henter
  refine ⟨⟨cs, catalog⟩, ?_⟩
  unfold Program.ofClauses Program.extend
  rw [henter']
  rfl

/-! ## Programs with the same clauses -/

/-- Two programs whose clauses are the same, but for the order. -/
structure Program.SameClauses (p p' : Program) : Prop where
  left : p.Valid
  right : p'.Valid
  forth : ∀ c ∈ p.clauses, ∃ d ∈ p'.clauses, c.Rearranged d
  back : ∀ d ∈ p'.clauses, ∃ c ∈ p.clauses, c.Rearranged d

namespace Program.SameClauses

variable {p p' : Program}

theorem symm (h : p.SameClauses p') : p'.SameClauses p where
  left := h.right
  right := h.left
  forth d hd := by
    obtain ⟨c, hc, hcd⟩ := h.back d hd
    exact ⟨c, hc, hcd.symm⟩
  back c hc := by
    obtain ⟨d, hd, hcd⟩ := h.forth c hc
    exact ⟨d, hd, hcd.symm⟩

theorem exists_rule (h : p.SameClauses p') {r : Rule} (hr : r ∈ p.rules) :
    ∃ r' ∈ p'.rules, r.Rearranged r' := by
  obtain ⟨d, hd, hrd⟩ := h.forth _ (mem_rules.mp hr)
  cases hrd with
  | rule hrr' => exact ⟨_, mem_rules.mpr hd, hrr'⟩

theorem facts_subset (h : p.SameClauses p') {a : Atom} (ha : a ∈ p.facts) : a ∈ p'.facts := by
  obtain ⟨d, hd, had⟩ := h.forth _ (mem_facts.mp ha)
  cases had
  exact mem_facts.mpr hd

theorem exists_atom (h : p.SameClauses p') {c : Clause} (hc : c ∈ p.clauses) {a : Atom}
    (ha : a ∈ c.atoms) : ∃ d ∈ p'.clauses, a ∈ d.atoms := by
  obtain ⟨d, hd, hcd⟩ := h.forth c hc
  exact ⟨d, hd, hcd.perm_atoms.mem_iff.mp ha⟩

theorem predicates_subset (h : p.SameClauses p') {name : Predicate} (hname : name ∈ p.predicates) :
    name ∈ p'.predicates := by
  obtain ⟨c, hc, a, ha, rfl⟩ := h.left.mem_predicates_iff.mp hname
  obtain ⟨d, hd, had⟩ := h.exists_atom hc ha
  exact h.right.mem_predicates_iff.mpr ⟨d, hd, a, had, rfl⟩

theorem mem_predicates_iff (h : p.SameClauses p') {name : Predicate} :
    name ∈ p.predicates ↔ name ∈ p'.predicates :=
  ⟨h.predicates_subset, h.symm.predicates_subset⟩

/-- Both programs give every predicate the same arity. -/
theorem arity?_eq (h : p.SameClauses p') (name : Predicate) : p.arity? name = p'.arity? name := by
  have hnone : ∀ {q : Program}, name ∉ q.predicates → q.arity? name = none := by
    intro q hq
    rw [Program.arity?, Table.find?_eq_none_iff.mpr hq]
    rfl
  by_cases hname : name ∈ p.predicates
  · obtain ⟨c, hc, a, ha, rfl⟩ := h.left.mem_predicates_iff.mp hname
    obtain ⟨d, hd, had⟩ := h.exists_atom hc ha
    rw [h.left.arity?_of_mem hc ha, h.right.arity?_of_mem hd had]
  · rw [hnone hname, hnone fun hname' => hname (h.mem_predicates_iff.mpr hname')]

theorem dependsOn_of_dependsOn (h : p.SameClauses p') {a b : Predicate} (hab : p.DependsOn a b) :
    p'.DependsOn a b := by
  obtain ⟨r, hr, rfl, x, hx, rfl⟩ := hab
  obtain ⟨r', hr', hrr'⟩ := h.exists_rule hr
  exact ⟨r', hr', by rw [hrr'.head], x, hrr'.body.mem_iff.mp hx, rfl⟩

theorem dependsOn_eq (h : p.SameClauses p') : p.DependsOn = p'.DependsOn := by
  funext a b
  exact propext ⟨h.dependsOn_of_dependsOn, h.symm.dependsOn_of_dependsOn⟩

theorem factAtoms_eq (h : p.SameClauses p') : p.factAtoms = p'.factAtoms := by
  ext g
  constructor
  · rintro ⟨a, ha, hg⟩
    exact ⟨a, h.facts_subset ha, hg⟩
  · rintro ⟨a, ha, hg⟩
    exact ⟨a, h.symm.facts_subset ha, hg⟩

theorem models_subset (h : p.SameClauses p') (base : Interpretation) :
    models p.clauses base ⊆ models p'.clauses base := by
  rintro I ⟨hbase, hclauses⟩
  refine ⟨hbase, fun d hd => ?_⟩
  obtain ⟨c, hc, hcd⟩ := h.back d hd
  exact hcd.holdsIn (hclauses c hc)

/-- Both programs have the same models. -/
theorem models_eq (h : p.SameClauses p') (base : Interpretation) :
    models p.clauses base = models p'.clauses base :=
  Set.Subset.antisymm (h.models_subset base) (h.symm.models_subset base)

end Program.SameClauses

theorem Shuffled.sameClauses {p p' : Program} (h : Shuffled p.clauses p'.clauses) (hp : p.Valid)
    (hp' : p'.Valid) : p.SameClauses p' where
  left := hp
  right := hp'
  forth _ hc := h.forth hc
  back _ hd := h.back hd

end Datalog
