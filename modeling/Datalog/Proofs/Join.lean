import Datalog.Join
import Datalog.Proofs.Outcome
import Datalog.Proofs.Substitution

/-!
# A join computes the conjunctive query of its body

Against a database that has the relations a rule body reads, `Rule.derive` cannot fail, and what it
gives are the instances of the head for all valuations that put every body atom into its range.

* `solutions`, `scanned`: the substitutions of a join and the number of tuples it fetches, without
  the calls.
* `derive_eq`: deriving on a database.
* `mem_derived_iff`: what is derived, in terms of valuations.
-/

namespace Datalog

open Substitution

namespace Range

/-- The tuples that a range has for a predicate. -/
def tuples (db : Database) (name : Predicate) : Range → List Tuple
  | .stored => db.tuples name
  | .recent added => added.tuples name

/-- The range can be asked for tuples of the given arity. -/
def Serves (db : Database) (name : Predicate) (arity : Nat) : Range → Prop
  | .stored => db.arity? name = some arity
  | .recent added => added.WellFormed ∧ ∀ k, added.arity? name = some k → k = arity

theorem find_eq {db : Database} (hdb : db.WellFormed) {range : Range} {name : Predicate}
    {pattern : Pattern} (h : range.Serves db name pattern.length) :
    range.find name pattern db = .ok ((range.tuples db name).filter pattern.fits) db := by
  cases range with
  | stored =>
    rw [find, Storage.lookup_database_eq_ok, hdb.lookup_eq_ok_iff]
    exact ⟨⟨h, rfl⟩, rfl⟩
  | recent added =>
    obtain ⟨hadded, harity⟩ := h
    rw [find]
    cases hk : added.arity? name with
    | none =>
      have hnone : added.tuples name = [] :=
        Database.tuples_of_find?_eq_none (Database.arity?_eq_none_iff.mp hk)
      simp only
      rw [tuples, hnone]
      rfl
    | some k =>
      have hfound : added.lookup name pattern = .ok ((added.tuples name).filter pattern.fits) :=
        hadded.lookup_eq_ok_iff.mpr ⟨by rw [hk, harity k hk], rfl⟩
      simp only
      rw [hfound]
      rfl

end Range

/-- The extensions of a substitution by the matches of an atom. -/
def Range.extensions (db : Database) (range : Range) (a : Atom) (s : Substitution) :
    List Substitution :=
  (range.tuples db a.predicate).filterMap fun t => a.match? t s

/-- The number of tuples fetched for an atom under a substitution. -/
def Range.fetched (db : Database) (range : Range) (a : Atom) (s : Substitution) : Nat :=
  ((range.tuples db a.predicate).filter (a.pattern s).fits).length

/-- The extensions of substitutions by the matches of several atoms. -/
def solutions (db : Database) : List (Range × Atom) → List Substitution → List Substitution
  | [], ss => ss
  | (range, a) :: rest, ss => solutions db rest (ss.flatMap (range.extensions db a))

/-- The number of tuples that a join fetches. -/
def scanned (db : Database) : List (Range × Atom) → List Substitution → Nat
  | [], _ => 0
  | (range, a) :: rest, ss =>
    total (ss.map (range.fetched db a)) + scanned db rest (ss.flatMap (range.extensions db a))

/-- Every atom can be looked up in its range. -/
def Served (db : Database) (body : List (Range × Atom)) : Prop :=
  ∀ p ∈ body, p.1.Serves db p.2.predicate p.2.arity

/-- Every atom becomes a tuple of its range. -/
def Satisfies (db : Database) (v : Valuation) (body : List (Range × Atom)) : Prop :=
  ∀ p ∈ body, (p.2.ground v).2 ∈ p.1.tuples db p.2.predicate

/-! ## The calls of a join -/

theorem extendAll_eq {db : Database} (hdb : db.WellFormed) {range : Range} {a : Atom}
    (h : range.Serves db a.predicate a.arity) (ss : List Substitution) :
    extendAll range a ss db =
      .ok (ss.flatMap (range.extensions db a), total (ss.map (range.fetched db a))) db := by
  induction ss with
  | nil => rfl
  | cons s ss ih =>
    have hserves : range.Serves db a.predicate (a.pattern s).length := by
      rw [Atom.length_pattern]
      exact h
    rw [extendAll, bind_of_eq_ok _ (Range.find_eq hdb hserves), bind_of_eq_ok _ ih,
      Atom.filterMap_match?_filter_fits]
    rfl

theorem join_eq {db : Database} (hdb : db.WellFormed) {body : List (Range × Atom)}
    (h : Served db body) (ss : List Substitution) :
    join body ss db = .ok (solutions db body ss, scanned db body ss) db := by
  induction body generalizing ss with
  | nil => rfl
  | cons p rest ih =>
    obtain ⟨range, a⟩ := p
    have hhead : range.Serves db a.predicate a.arity := h (range, a) List.mem_cons_self
    have hrest : Served db rest := fun q hq => h q (List.mem_cons_of_mem _ hq)
    rw [join, bind_of_eq_ok _ (extendAll_eq hdb hhead ss)]
    simp only
    rw [bind_of_eq_ok _ (ih hrest _)]
    rfl

/-- The instances of a rule's head that the ranges of its body support, each once. -/
def Rule.derived (r : Rule) (db : Database) (body : List (Range × Atom)) : List Tuple :=
  ((solutions db body [∅]).filterMap r.head.instance?).eraseDups

/-- **Deriving on a database** that has the relations read gives the supported instances. -/
theorem derive_eq {db : Database} (hdb : db.WellFormed) (r : Rule) {body : List (Range × Atom)}
    (h : Served db body) :
    r.derive body db = .ok (r.derived db body, scanned db body [∅]) db := by
  rw [Rule.derive, bind_of_eq_ok _ (join_eq hdb h [∅])]
  rfl

/-! ## Solutions and valuations -/

/-- A solution binds the variables of the body, and under every valuation that agrees with it the
body is satisfied. -/
theorem solutions_sound {db : Database} {body : List (Range × Atom)} {ss : List Substitution}
    {s' : Substitution} (h : s' ∈ solutions db body ss) :
    (∃ s ∈ ss, s.Extends s') ∧ (∀ p ∈ body, ∀ x ∈ p.2.vars, s'.Binds x) ∧
      ∀ v, s'.Agrees v → Satisfies db v body := by
  induction body generalizing ss with
  | nil => exact ⟨⟨s', h, Extends.refl s'⟩, by simp, fun _ _ _ hp => absurd hp List.not_mem_nil⟩
  | cons p rest ih =>
    obtain ⟨range, a⟩ := p
    obtain ⟨⟨s₁, hs₁, hext⟩, hbinds, hsat⟩ := ih h
    obtain ⟨s, hs, hs₁⟩ := List.mem_flatMap.mp hs₁
    obtain ⟨t, ht, hmatch⟩ := List.mem_filterMap.mp hs₁
    refine ⟨⟨s, hs, (Atom.extends_of_match? hmatch).trans hext⟩, ?_, ?_⟩
    · intro q hq x hx
      rcases List.mem_cons.mp hq with rfl | hq
      · exact hext.binds (Atom.binds_of_match? hmatch hx)
      · exact hbinds q hq x hx
    · intro v hv q hq
      rcases List.mem_cons.mp hq with rfl | hq
      · show (a.ground v).2 ∈ range.tuples db a.predicate
        rw [Atom.ground_of_match? hmatch (hext.agrees hv)]
        exact ht
      · exact hsat v hv q hq

/-- Every valuation that satisfies the body agrees with some solution. -/
theorem exists_solution {db : Database} {body : List (Range × Atom)} {v : Valuation}
    (h : Satisfies db v body) {ss : List Substitution} {s : Substitution} (hs : s ∈ ss)
    (hv : s.Agrees v) : ∃ s' ∈ solutions db body ss, s'.Agrees v := by
  induction body generalizing ss s with
  | nil => exact ⟨s, hs, hv⟩
  | cons p rest ih =>
    obtain ⟨range, a⟩ := p
    obtain ⟨s₁, hmatch, hv₁⟩ := Atom.exists_match? hv a
    have hmem : s₁ ∈ ss.flatMap (range.extensions db a) := by
      refine List.mem_flatMap.mpr ⟨s, hs, List.mem_filterMap.mpr ⟨(a.ground v).2, ?_, hmatch⟩⟩
      exact h (range, a) List.mem_cons_self
    exact ih (fun q hq => h q (List.mem_cons_of_mem _ hq)) hmem hv₁

namespace Rule

/-- Every variable of the head occurs in the body. -/
def RangeRestricted (r : Rule) : Prop := ∀ x ∈ r.head.vars, x ∈ r.bodyVars

/-- **What is derived** are the instances of the head for the valuations that put every body atom
into its range. -/
theorem mem_derived_iff {r : Rule} (hr : r.RangeRestricted) {db : Database}
    {body : List (Range × Atom)} (hbody : body.map Prod.snd = r.body) {t : Tuple} :
    t ∈ r.derived db body ↔ ∃ v, Satisfies db v body ∧ (r.head.ground v).2 = t := by
  have hhead : ∀ {s'}, s' ∈ solutions db body [∅] → ∀ x ∈ r.head.vars, s'.Binds x := by
    intro s' hs' x hx
    obtain ⟨a, ha, hxa⟩ := List.mem_flatMap.mp (hr x hx)
    rw [← hbody] at ha
    obtain ⟨p, hp, rfl⟩ := List.mem_map.mp ha
    exact (solutions_sound hs').2.1 p hp x hxa
  unfold derived
  rw [List.mem_eraseDups, List.mem_filterMap]
  constructor
  · rintro ⟨s', hs', ht⟩
    have hv := agrees_valuation s'
    rw [Atom.instance?_eq_some hv (hhead hs')] at ht
    exact ⟨s'.valuation, (solutions_sound hs').2.2 _ hv, Option.some.inj ht⟩
  · rintro ⟨v, hsat, rfl⟩
    obtain ⟨s', hs', hv⟩ := exists_solution hsat (List.mem_singleton.mpr rfl) (agrees_empty v)
    exact ⟨s', hs', Atom.instance?_eq_some hv (hhead hs')⟩

end Rule

end Datalog
