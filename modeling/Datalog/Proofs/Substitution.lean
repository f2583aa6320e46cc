import Datalog.Substitution
import Datalog.Proofs.Interpretation
import Datalog.Proofs.Relation.Matching

/-!
# Matching an atom against a tuple

A substitution stands for all valuations that agree with its bindings.  Matching an atom against a
tuple extends a substitution just so far that the atom becomes the tuple: under every valuation that
agrees with the result the atom is the tuple (`Atom.ground_of_match?`), and no valuation under which
it is the tuple is lost (`Atom.exists_match?`).
-/

namespace Datalog

namespace Substitution

/-- The valuation gives every bound variable its value. -/
def Agrees (s : Substitution) (v : Valuation) : Prop :=
  ∀ x c, s.find? x = some c → v x = c

/-- Every binding of the first substitution is one of the second. -/
def Extends (s s' : Substitution) : Prop :=
  ∀ x c, s.find? x = some c → s'.find? x = some c

/-- A variable is bound. -/
def Binds (s : Substitution) (x : Variable) : Prop := ∃ c, s.find? x = some c

/-- A valuation that agrees with a substitution. -/
def valuation (s : Substitution) : Valuation := fun x => (s.find? x).getD ""

theorem agrees_valuation (s : Substitution) : s.Agrees s.valuation := by
  intro x c h
  unfold valuation
  rw [h]
  rfl

theorem agrees_empty (v : Valuation) : Agrees ∅ v := by
  intro x c h
  cases h

theorem Extends.refl (s : Substitution) : s.Extends s := fun _ _ h => h

theorem Extends.trans {s s' s'' : Substitution} (h : s.Extends s') (h' : s'.Extends s'') :
    s.Extends s'' := fun x c hx => h' x c (h x c hx)

theorem Extends.agrees {s s' : Substitution} (h : s.Extends s') {v : Valuation}
    (hv : s'.Agrees v) : s.Agrees v := fun x c hx => hv x c (h x c hx)

theorem Extends.binds {s s' : Substitution} (h : s.Extends s') {x : Variable} (hx : s.Binds x) :
    s'.Binds x := by
  obtain ⟨c, hc⟩ := hx
  exact ⟨c, h x c hc⟩

/-- Binding a free variable. -/
theorem find?_insertNew_of_free {s : Substitution} {x : Variable} (h : s.find? x = none)
    (c : Constant) (y : Variable) :
    (s.insertNew x c).find? y = if y = x then some c else s.find? y := by
  rw [Table.find?_insertNew, h]
  rfl

theorem extends_insertNew {s : Substitution} {x : Variable} (h : s.find? x = none)
    (c : Constant) : s.Extends (s.insertNew x c) := by
  intro y d hy
  rw [find?_insertNew_of_free h]
  by_cases hyx : y = x
  · rw [hyx, h] at hy
    cases hy
  · rw [if_neg hyx, hy]

theorem agrees_insertNew {s : Substitution} {x : Variable} (h : s.find? x = none) {v : Valuation}
    (hv : s.Agrees v) : Agrees (s.insertNew x (v x)) v := by
  intro y d hy
  rw [find?_insertNew_of_free h] at hy
  by_cases hyx : y = x
  · rw [if_pos hyx] at hy
    rw [hyx]
    exact Option.some.inj hy
  · rw [if_neg hyx] at hy
    exact hv y d hy

end Substitution

open Substitution

/-- A valuation that agrees with a substitution gives a term the value it has under it. -/
theorem Term.eval_of_value? {s : Substitution} {v : Valuation} (hv : s.Agrees v) {t : Term}
    {c : Constant} (h : t.value? s = some c) : t.eval v = c := by
  cases t with
  | const d => exact Option.some.inj h
  | var x => exact hv x c h

namespace Atom

/-- Matching a variable finds it bound to the value or binds it, and then matches the rest. -/
theorem exists_of_matchTerms_var {x : Variable} {ts : List Term} {c : Constant} {t : Tuple}
    {s s' : Substitution} (h : matchTerms (.var x :: ts) (c :: t) s = some s') :
    ∃ s₁, s.Extends s₁ ∧ s₁.find? x = some c ∧ matchTerms ts t s₁ = some s' := by
  rw [matchTerms] at h
  cases hx : s.find? x with
  | some w =>
    rw [hx] at h
    simp only at h
    split at h
    · next hwc => exact ⟨s, Extends.refl s, hwc ▸ hx, h⟩
    · cases h
  | none =>
    rw [hx] at h
    refine ⟨s.insertNew x c, extends_insertNew hx c, ?_, h⟩
    rw [find?_insertNew_of_free hx, if_pos rfl]

theorem matchTerms_spec {ts : List Term} {t : Tuple} {s s' : Substitution}
    (h : matchTerms ts t s = some s') :
    s.Extends s' ∧ (∀ x, Term.var x ∈ ts → s'.Binds x) ∧
      ∀ v, s'.Agrees v → ts.map (Term.eval v) = t := by
  induction ts generalizing t s with
  | nil =>
    cases t with
    | nil =>
      rw [matchTerms] at h
      rw [← Option.some.inj h]
      exact ⟨Extends.refl s, by simp, fun _ _ => rfl⟩
    | cons c t => simp [matchTerms] at h
  | cons u ts ih =>
    cases t with
    | nil => cases u <;> simp [matchTerms] at h
    | cons c t =>
      cases u with
      | const d =>
        rw [matchTerms] at h
        split at h
        · next hdc =>
          obtain ⟨hext, hbinds, heval⟩ := ih h
          refine ⟨hext, ?_, ?_⟩
          · intro x hx
            exact hbinds x (by simpa using hx)
          · intro v hv
            rw [List.map_cons, heval v hv]
            exact congrArg (· :: t) hdc
        · cases h
      | var x =>
        obtain ⟨s₁, hext₁, hx₁, hrest⟩ := exists_of_matchTerms_var h
        obtain ⟨hext, hbinds, heval⟩ := ih hrest
        refine ⟨hext₁.trans hext, ?_, ?_⟩
        · intro y hy
          rcases List.mem_cons.mp hy with heq | hy
          · cases heq
            exact ⟨c, hext x c hx₁⟩
          · exact hbinds y hy
        · intro v hv
          rw [List.map_cons, heval v hv]
          exact congrArg (· :: t) (hv x c (hext x c hx₁))

theorem exists_matchTerms {s : Substitution} {v : Valuation} (hv : s.Agrees v) (ts : List Term) :
    ∃ s', matchTerms ts (ts.map (Term.eval v)) s = some s' ∧ s'.Agrees v := by
  induction ts generalizing s with
  | nil => exact ⟨s, rfl, hv⟩
  | cons u ts ih =>
    rw [List.map_cons]
    cases u with
    | const d =>
      rw [Term.eval, matchTerms, if_pos rfl]
      exact ih hv
    | var x =>
      rw [Term.eval, matchTerms]
      cases hx : s.find? x with
      | some w =>
        simp only
        rw [if_pos (hv x w hx).symm]
        exact ih hv
      | none => exact ih (agrees_insertNew hx hv)

/-- Matching keeps all bindings. -/
theorem extends_of_match? {a : Atom} {t : Tuple} {s s' : Substitution}
    (h : a.match? t s = some s') : s.Extends s' := (matchTerms_spec h).1

/-- Matching binds every variable of the atom. -/
theorem binds_of_match? {a : Atom} {t : Tuple} {s s' : Substitution} (h : a.match? t s = some s')
    {x : Variable} (hx : x ∈ a.vars) : s'.Binds x :=
  (matchTerms_spec h).2.1 x (mem_vars.mp hx)

/-- **After matching, the atom is the tuple**, under every valuation that agrees with the result. -/
theorem ground_of_match? {a : Atom} {t : Tuple} {s s' : Substitution} (h : a.match? t s = some s')
    {v : Valuation} (hv : s'.Agrees v) : a.ground v = (a.predicate, t) := by
  unfold ground
  rw [(matchTerms_spec h).2.2 v hv]

/-- **Matching loses no valuation** under which the atom is the tuple. -/
theorem exists_match? {s : Substitution} {v : Valuation} (hv : s.Agrees v) (a : Atom) :
    ∃ s', a.match? (a.ground v).2 s = some s' ∧ s'.Agrees v :=
  exists_matchTerms hv a.terms

theorem length_of_match? {a : Atom} {t : Tuple} {s s' : Substitution}
    (h : a.match? t s = some s') : t.length = a.arity := by
  rw [← length_ground s'.valuation a, ground_of_match? h (agrees_valuation s')]

theorem length_pattern (a : Atom) (s : Substitution) : (a.pattern s).length = a.arity :=
  List.length_map _

/-- A tuple that the atom matches fits the pattern that is looked up. -/
theorem fits_of_match? {a : Atom} {t : Tuple} {s s' : Substitution}
    (h : a.match? t s = some s') : (a.pattern s).fits t = true := by
  have hlen : (a.pattern s).length = t.length := by
    rw [length_pattern, length_of_match? h]
  have hv := agrees_valuation s'
  have ht : (a.ground s'.valuation).2 = t := congrArg Prod.snd (ground_of_match? h hv)
  rw [Pattern.fits_iff hlen]
  intro i c hi
  rw [← ht]
  unfold pattern at hi
  unfold ground
  rw [List.getElem?_map, Option.map_eq_some_iff] at hi ⊢
  obtain ⟨u, hu, hc⟩ := hi
  exact ⟨u, hu, Term.eval_of_value? ((extends_of_match? h).agrees hv) hc⟩

/-- Among the tuples found for the pattern, the same ones match as among all tuples. -/
theorem filterMap_match?_filter_fits (a : Atom) (s : Substitution) (ts : List Tuple) :
    (ts.filter (a.pattern s).fits).filterMap (fun t => a.match? t s) =
      ts.filterMap fun t => a.match? t s := by
  rw [List.filterMap_filter]
  apply List.filterMap_congr
  intro t _
  split
  · rfl
  · next hfits =>
    cases h : a.match? t s with
    | none => rfl
    | some s' => exact absurd (fits_of_match? h) hfits

/-! ## Instances -/

theorem instanceOf?_eq_some {s : Substitution} {v : Valuation} (hv : s.Agrees v) {ts : List Term}
    (hbinds : ∀ x, Term.var x ∈ ts → s.Binds x) :
    instanceOf? s ts = some (ts.map (Term.eval v)) := by
  induction ts with
  | nil => rfl
  | cons u ts ih =>
    have hu : u.value? s = some (u.eval v) := by
      cases u with
      | const c => rfl
      | var x =>
        obtain ⟨c, hc⟩ := hbinds x List.mem_cons_self
        show s.find? x = some (v x)
        rw [hc, hv x c hc]
    rw [instanceOf?, hu, ih fun x hx => hbinds x (List.mem_cons_of_mem u hx)]
    rfl

/-- With all its variables bound, an atom has the instance that any agreeing valuation gives. -/
theorem instance?_eq_some {a : Atom} {s : Substitution} {v : Valuation} (hv : s.Agrees v)
    (hbinds : ∀ x ∈ a.vars, s.Binds x) : a.instance? s = some (a.ground v).2 :=
  instanceOf?_eq_some hv fun x hx => hbinds x (mem_vars.mpr hx)

end Atom

end Datalog
