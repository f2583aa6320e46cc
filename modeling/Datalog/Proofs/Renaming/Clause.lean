import Datalog.Proofs.Program
import Datalog.Proofs.Renaming.Database
import Mathlib.SetTheory.Cardinal.Arithmetic

/-!
# Renamed clauses

A clause is renamed by new constants, the same for all clauses, and new variables, which may be
chosen for this clause alone, as long as different variables of the clause stay different.

* `Term.rename`, `Atom.rename`, `Rule.rename`, `Clause.rename`: the terms of the language with other
  constants and variables.
* `Rule.RenamedBy`, `Clause.RenamedBy`: a rule and a clause, and what they are renamed to.
* `Atom.match?_rename`, `Atom.instance?_rename`: matching and instantiating a renamed atom has the
  renamed result.

## Why the variables may be renamed by an injective map of all names

Only the variables of the clause need to stay different.  But they are finitely many among
infinitely many names, so a map that is injective on them agrees, on them, with a permutation of all
names (`Clause.RenamedBy.exists_embedding`).  A substitution can then be renamed without asking
where its variables come from.
-/

namespace Datalog

section Syntax

variable (ρ : Variable → Variable) (σ : Constant → Constant)

/-- The argument with another name; a constant stays a constant, however it is spelled. -/
def Term.rename : Term → Term
  | .const c => .const (σ c)
  | .var x => .var (ρ x)

/-- The same predicate, applied to renamed arguments. -/
def Atom.rename (a : Atom) : Atom := ⟨a.predicate, a.terms.map (Term.rename ρ σ)⟩

/-- The rule with every atom renamed. -/
def Rule.rename (r : Rule) : Rule := ⟨r.head.rename ρ σ, r.body.map (Atom.rename ρ σ)⟩

/-- The clause with every atom renamed. -/
def Clause.rename : Clause → Clause
  | .fact a => .fact (a.rename ρ σ)
  | .rule r => .rule (r.rename ρ σ)

/-- The variables of a clause, the head first, each as often as it occurs. -/
def Clause.vars (c : Clause) : List Variable := c.atoms.flatMap Atom.vars

namespace Atom

@[simp] theorem predicate_rename (a : Atom) : (a.rename ρ σ).predicate = a.predicate := rfl

@[simp] theorem arity_rename (a : Atom) : (a.rename ρ σ).arity = a.arity := List.length_map _

theorem vars_rename (a : Atom) : (a.rename ρ σ).vars = a.vars.map ρ := by
  unfold vars rename
  rw [List.filterMap_map, List.map_filterMap]
  refine List.filterMap_congr fun t _ => ?_
  cases t <;> rfl

theorem values?_rename (ts : List Term) :
    values? (ts.map (Term.rename ρ σ)) = (values? ts).map (List.map σ) := by
  induction ts with
  | nil => rfl
  | cons t ts ih =>
    cases t with
    | var x => rfl
    | const c =>
      show (values? (ts.map (Term.rename ρ σ))).map (σ c :: ·) = ((values? ts).map (c :: ·)).map _
      rw [ih]
      cases values? ts <;> rfl

theorem toTuple?_rename (a : Atom) : (a.rename ρ σ).toTuple? = a.toTuple?.map (List.map σ) :=
  values?_rename ρ σ a.terms

variable {ρ} {ρ' : Variable → Variable}

theorem rename_congr {a : Atom} (h : ∀ x ∈ a.vars, ρ x = ρ' x) : a.rename ρ σ = a.rename ρ' σ := by
  refine congrArg (Atom.mk a.predicate) (List.map_congr_left fun t ht => ?_)
  cases t with
  | const c => rfl
  | var x => exact congrArg Term.var (h x (List.mem_filterMap.mpr ⟨_, ht, rfl⟩))

end Atom

theorem Rule.bodyVars_rename (r : Rule) : (r.rename ρ σ).bodyVars = r.bodyVars.map ρ := by
  unfold bodyVars rename
  rw [List.flatMap_map, List.map_flatMap]
  exact List.flatMap_congr fun a _ => a.vars_rename ρ σ

namespace Clause

theorem atoms_rename (c : Clause) : (c.rename ρ σ).atoms = c.atoms.map (Atom.rename ρ σ) := by
  cases c <;> rfl

theorem head_rename (c : Clause) : (c.rename ρ σ).head = c.head.rename ρ σ := by
  cases c <;> rfl

variable {ρ} {ρ' : Variable → Variable}

theorem rename_congr {c : Clause} (h : ∀ x ∈ c.vars, ρ x = ρ' x) :
    c.rename ρ σ = c.rename ρ' σ := by
  have hatom : ∀ a ∈ c.atoms, a.rename ρ σ = a.rename ρ' σ := fun a ha =>
    Atom.rename_congr σ fun x hx => h x (List.mem_flatMap.mpr ⟨a, ha, hx⟩)
  cases c with
  | fact a => exact congrArg Clause.fact (hatom a (List.mem_singleton.mpr rfl))
  | rule r =>
    have hbody : r.body.map (Atom.rename ρ σ) = r.body.map (Atom.rename ρ' σ) :=
      List.map_congr_left fun a ha => hatom a (List.mem_cons_of_mem _ ha)
    exact congrArg Clause.rule (congrArg₂ Rule.mk (hatom r.head List.mem_cons_self) hbody)

end Clause

end Syntax

/-! ## What a clause is renamed to -/

/-- The rule is renamed to another one. -/
def Rule.RenamedBy (σ : Constant ↪ Constant) (r r' : Rule) : Prop :=
  ∃ ρ : Variable ↪ Variable, r' = r.rename ρ σ

/-- The clause is renamed to another one; different variables of the clause stay different. -/
def Clause.RenamedBy (σ : Constant ↪ Constant) (c c' : Clause) : Prop :=
  ∃ ρ : Variable → Variable, Set.InjOn ρ {x | x ∈ c.vars} ∧ c' = c.rename ρ σ

/-- A map that is injective on finitely many names agrees with a permutation there. -/
theorem exists_embedding_of_injOn {ρ : Variable → Variable} {xs : List Variable}
    (h : Set.InjOn ρ {x | x ∈ xs}) : ∃ ρ' : Variable ↪ Variable, ∀ x ∈ xs, ρ' x = ρ x := by
  have hsmall : Cardinal.mk {x | x ∈ xs} < Cardinal.mk Variable :=
    (Cardinal.lt_aleph0_iff_set_finite.mpr (List.finite_toSet xs)).trans_le
      (Cardinal.infinite_iff.mp inferInstance)
  obtain ⟨ρ', hρ'⟩ := Cardinal.extend_function_of_lt
    (⟨fun x => ρ x, h.injective⟩ : {x | x ∈ xs} ↪ Variable) hsmall ⟨Equiv.refl Variable⟩
  exact ⟨ρ'.toEmbedding, fun x hx => hρ' ⟨x, hx⟩⟩

section

variable {σ : Constant ↪ Constant}

theorem Clause.RenamedBy.exists_embedding {c c' : Clause} (h : c.RenamedBy σ c') :
    ∃ ρ : Variable ↪ Variable, c' = c.rename ρ σ := by
  obtain ⟨ρ, hρ, rfl⟩ := h
  obtain ⟨ρ', hρ'⟩ := exists_embedding_of_injOn hρ
  exact ⟨ρ', Clause.rename_congr σ fun x hx => (hρ' x hx).symm⟩

/-- A renamed clause is as well formed as the clause. -/
theorem Clause.RenamedBy.check_eq_ok {c c' : Clause} (h : c.RenamedBy σ c')
    (hcheck : c.check = .ok ()) : c'.check = .ok () := by
  obtain ⟨ρ, rfl⟩ := h.exists_embedding
  rw [check_eq_ok_iff] at hcheck ⊢
  cases c with
  | fact a =>
    show (a.rename ρ σ).vars = []
    rw [Atom.vars_rename, List.map_eq_nil_iff]
    exact hcheck
  | rule r =>
    show ∀ x ∈ (r.head.rename ρ σ).vars, x ∈ (r.rename ρ σ).bodyVars
    rw [Atom.vars_rename, Rule.bodyVars_rename, List.forall_mem_map]
    exact fun x hx => List.mem_map_of_mem (hcheck x hx)

end

/-! ## Matching and instances -/

variable (ρ : Variable ↪ Variable) (σ : Constant ↪ Constant)

theorem Term.value?_rename (s : Substitution) (t : Term) :
    (t.rename ρ σ).value? (s.rename ρ σ) = (t.value? s).map σ := by
  cases t with
  | const c => rfl
  | var x => exact Table.find?_rename ρ.injective σ s x

namespace Atom

theorem pattern_rename (a : Atom) (s : Substitution) :
    (a.rename ρ σ).pattern (s.rename ρ σ) = (a.pattern s).rename σ := by
  unfold pattern rename Pattern.rename
  rw [List.map_map, List.map_map]
  exact List.map_congr_left fun t _ => Term.value?_rename ρ σ s t

theorem matchTerms_rename (ts : List Term) (t : Tuple) (s : Substitution) :
    matchTerms (ts.map (Term.rename ρ σ)) (t.map σ) (s.rename ρ σ) =
      (matchTerms ts t s).map (Table.rename ρ σ) := by
  induction ts generalizing t s with
  | nil => cases t <;> rfl
  | cons u ts ih =>
    cases t with
    | nil => cases u <;> rfl
    | cons v vs =>
      cases u with
      | const c =>
        show (if σ c = σ v then matchTerms (ts.map (Term.rename ρ σ)) (vs.map σ) (s.rename ρ σ)
          else none) = (if c = v then matchTerms ts vs s else none).map (Table.rename ρ σ)
        by_cases hcv : c = v
        · rw [if_pos hcv, if_pos (congrArg σ hcv), ih]
        · rw [if_neg hcv, if_neg (σ.injective.ne hcv), Option.map_none]
      | var x =>
        have hfind := Table.find?_rename ρ.injective σ s x
        rw [List.map_cons, List.map_cons, Term.rename, matchTerms, matchTerms, hfind]
        cases hx : s.find? x with
        | none =>
          simp only [Option.map_none]
          rw [Table.insertNew_rename ρ.injective, ih]
        | some w =>
          simp only [Option.map_some]
          by_cases hwv : w = v
          · rw [if_pos hwv, if_pos (congrArg σ hwv), ih]
          · rw [if_neg hwv, if_neg (σ.injective.ne hwv), Option.map_none]

/-- **Matching** a renamed atom against a renamed tuple. -/
theorem match?_rename (a : Atom) (t : Tuple) (s : Substitution) :
    (a.rename ρ σ).match? (t.map σ) (s.rename ρ σ) = (a.match? t s).map (Table.rename ρ σ) :=
  matchTerms_rename ρ σ a.terms t s

theorem instanceOf?_rename (s : Substitution) (ts : List Term) :
    instanceOf? (s.rename ρ σ) (ts.map (Term.rename ρ σ)) =
      (instanceOf? s ts).map (List.map σ) := by
  induction ts with
  | nil => rfl
  | cons t ts ih =>
    rw [List.map_cons, instanceOf?, instanceOf?, Term.value?_rename]
    cases t.value? s with
    | none => rfl
    | some v =>
      simp only [Option.map_some]
      rw [ih]
      cases instanceOf? s ts <;> rfl

/-- **The instance** of a renamed atom. -/
theorem instance?_rename (a : Atom) (s : Substitution) :
    (a.rename ρ σ).instance? (s.rename ρ σ) = (a.instance? s).map (List.map σ) :=
  instanceOf?_rename ρ σ s a.terms

end Atom

end Datalog
