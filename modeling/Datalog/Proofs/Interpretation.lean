import Datalog.Clause
import Mathlib.Order.Bounds.Basic
import Mathlib.Data.Set.Lattice

/-!
# Interpretations and least models

An *interpretation* says which ground atoms are true.  A rule holds in it if, for every value of its
variables that makes the whole body true, the head is true; a fact holds if all its instances are
true.  Clauses of this kind are kept by intersections, so among the interpretations that contain
some given ground atoms and make some given clauses true there is a least one.

* `GroundAtom`, `Interpretation`, `Valuation`: the vocabulary.
* `Clause.HoldsIn`, `models`: truth of a clause, and the interpretations that make clauses true.
* `leastModel`, `isLeast_leastModel`: the least of them.
-/

namespace Datalog

/-- A predicate with a tuple of values. -/
abbrev GroundAtom := Predicate × Tuple

/-- The ground atoms that are true. -/
abbrev Interpretation := Set GroundAtom

/-- A value for every variable. -/
abbrev Valuation := Variable → Constant

/-- The value of a term. -/
def Term.eval (v : Valuation) : Term → Constant
  | .const c => c
  | .var x => v x

/-- The instance of an atom under a valuation. -/
def Atom.ground (v : Valuation) (a : Atom) : GroundAtom := (a.predicate, a.terms.map (Term.eval v))

/-- A rule holds if its head is true whenever its whole body is. -/
def Rule.HoldsIn (r : Rule) (I : Interpretation) : Prop :=
  ∀ v : Valuation, (∀ b ∈ r.body, b.ground v ∈ I) → r.head.ground v ∈ I

/-- A fact holds if all its instances are true. -/
def Clause.HoldsIn (I : Interpretation) : Clause → Prop
  | .fact a => ∀ v : Valuation, a.ground v ∈ I
  | .rule r => r.HoldsIn I

/-- The interpretations that contain the given ground atoms and make the given clauses true. -/
def models (cs : List Clause) (base : Interpretation) : Set Interpretation :=
  {I | base ⊆ I ∧ ∀ c ∈ cs, c.HoldsIn I}

/-- The ground atoms that are true in all these interpretations. -/
def leastModel (cs : List Clause) (base : Interpretation) : Interpretation := ⋂₀ models cs base

/-! ## Instances -/

@[simp] theorem Atom.ground_fst (v : Valuation) (a : Atom) : (a.ground v).1 = a.predicate := rfl

@[simp] theorem Atom.length_ground (v : Valuation) (a : Atom) : (a.ground v).2.length = a.arity :=
  List.length_map _

theorem Atom.mem_vars {a : Atom} {x : Variable} : x ∈ a.vars ↔ Term.var x ∈ a.terms := by
  unfold Atom.vars
  rw [List.mem_filterMap]
  constructor
  · rintro ⟨t, ht, hx⟩
    cases t with
    | const c => cases hx
    | var y =>
      cases hx
      exact ht
  · intro h
    exact ⟨.var x, h, rfl⟩

theorem Atom.map_eval_of_values? (v : Valuation) {ts : List Term} {t : Tuple}
    (h : Atom.values? ts = some t) : ts.map (Term.eval v) = t := by
  induction ts generalizing t with
  | nil =>
    rw [Atom.values?] at h
    exact Option.some.inj h
  | cons u ts ih =>
    cases u with
    | var x =>
      rw [Atom.values?] at h
      cases h
    | const c =>
      rw [Atom.values?] at h
      obtain ⟨t', ht', rfl⟩ := Option.map_eq_some_iff.mp h
      rw [List.map_cons, ih ht']
      rfl

theorem Atom.exists_values? {ts : List Term} (h : ∀ x, Term.var x ∉ ts) :
    ∃ t, Atom.values? ts = some t := by
  induction ts with
  | nil => exact ⟨[], rfl⟩
  | cons u ts ih =>
    obtain ⟨t, ht⟩ := ih fun x hx => h x (List.mem_cons_of_mem u hx)
    cases u with
    | var x => exact absurd List.mem_cons_self (h x)
    | const c =>
      refine ⟨c :: t, ?_⟩
      rw [Atom.values?, ht]
      rfl

/-- A ground atom is its only instance. -/
theorem Atom.ground_of_toTuple? {a : Atom} {t : Tuple} (h : a.toTuple? = some t) (v : Valuation) :
    a.ground v = (a.predicate, t) := by
  unfold Atom.ground
  rw [Atom.map_eval_of_values? v h]

/-- An atom without variables is a row of its relation. -/
theorem Atom.exists_toTuple? {a : Atom} (h : a.vars = []) : ∃ t, a.toTuple? = some t := by
  apply Atom.exists_values?
  intro x hx
  have hmem := Atom.mem_vars.mpr hx
  rw [h] at hmem
  exact List.not_mem_nil hmem

/-! ## The least model -/

theorem Rule.HoldsIn.sInter {r : Rule} {S : Set Interpretation} (h : ∀ I ∈ S, r.HoldsIn I) :
    r.HoldsIn (⋂₀ S) := by
  intro v hbody I hI
  exact h I hI v fun b hb => hbody b hb I hI

theorem Clause.HoldsIn.sInter {c : Clause} {S : Set Interpretation} (h : ∀ I ∈ S, c.HoldsIn I) :
    c.HoldsIn (⋂₀ S) := by
  cases c with
  | fact a => exact fun v I hI => h I hI v
  | rule r => exact Rule.HoldsIn.sInter h

/-- **The least model is a model, and it is contained in every other.** -/
theorem isLeast_leastModel (cs : List Clause) (base : Interpretation) :
    IsLeast (models cs base) (leastModel cs base) := by
  refine ⟨⟨?_, ?_⟩, ?_⟩
  · exact Set.subset_sInter fun I hI => hI.1
  · exact fun c hc => Clause.HoldsIn.sInter fun I hI => hI.2 c hc
  · exact fun I hI => Set.sInter_subset_of_mem hI

/-- More clauses and more ground atoms make more atoms true. -/
theorem leastModel_mono {cs ds : List Clause} {base base' : Interpretation}
    (hcs : ∀ c ∈ cs, c ∈ ds) (hbase : base ⊆ base') :
    leastModel cs base ⊆ leastModel ds base' := by
  apply (isLeast_leastModel cs base).2
  refine ⟨hbase.trans (isLeast_leastModel ds base').1.1, ?_⟩
  exact fun c hc => (isLeast_leastModel ds base').1.2 c (hcs c hc)

/-- Starting from atoms between the given ones and the least model changes nothing. -/
theorem models_eq_of_subset_leastModel {cs : List Clause} {base base' : Interpretation}
    (hle : base ⊆ base') (hge : base' ⊆ leastModel cs base) :
    models cs base' = models cs base := by
  ext I
  constructor
  · rintro ⟨hI, hcs⟩
    exact ⟨hle.trans hI, hcs⟩
  · rintro ⟨hI, hcs⟩
    exact ⟨hge.trans ((isLeast_leastModel cs base).2 ⟨hI, hcs⟩), hcs⟩

end Datalog
