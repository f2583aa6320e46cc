import Datalog.Proofs.Program.Batches
import Datalog.Proofs.Renaming.Clause
import Datalog.Proofs.Stratification

/-!
# Renamed programs

When the clauses of a program are renamed, they are accepted as before, and what the program knows
about its predicates is the same: the catalog, the dependencies, and hence the strata, which hold
the renamed rules in the same order.

* `Program.RenamedBy`: the clauses are renamed, and the catalog is the same.
* `Program.exists_renamed`: renamed clauses make up such a program.
* `Stratification.renamed`: its strata are the renamed ones.

## Why the catalog is the same

To enter a clause is to look at its predicates, their arities, and whether it is a fact or a rule.
None of these is renamed.
-/

namespace Datalog

variable {σ : Constant ↪ Constant}

/-- The clauses are renamed one by one, and the predicates are as they were. -/
structure Program.RenamedBy (σ : Constant ↪ Constant) (p q : Program) : Prop where
  clauses : List.Forall₂ (Clause.RenamedBy σ) p.clauses q.clauses
  catalog : q.catalog = p.catalog

/-- The rules are renamed one by one, and the predicates and the flag are as they were. -/
structure Stratum.RenamedBy (σ : Constant ↪ Constant) (s s' : Stratum) : Prop where
  predicates : s'.predicates = s.predicates
  recursive : s'.recursive = s.recursive
  rules : List.Forall₂ (Rule.RenamedBy σ) s.rules s'.rules

/-! ## Renamed clauses are accepted -/

namespace Catalog

variable {ρ : Variable → Variable} {catalog catalog' : Catalog}

theorem declareAll_rename (ρ : Variable → Variable) (σ : Constant → Constant) (as : List Atom) :
    declareAll (as.map (Atom.rename ρ σ)) = declareAll as := by
  induction as with
  | nil => rfl
  | cons a as ih =>
    have hdeclare : declare (a.rename ρ σ) = declare a := by
      funext catalog
      unfold declare
      rw [Atom.arity_rename, Atom.predicate_rename]
    rw [List.map_cons, declareAll, declareAll, hdeclare, ih]

theorem record_rename (ρ : Variable → Variable) (σ : Constant → Constant) (place : Nat)
    (c : Clause) (catalog : Catalog) :
    record place (c.rename ρ σ) catalog = record place c catalog := by
  unfold record
  rw [Clause.head_rename, Atom.predicate_rename, Atom.arity_rename]
  cases c <;> rfl

theorem enter_renamed {place : Nat} {c c' : Clause} (hc : c.RenamedBy σ c')
    (h : enter place c catalog = .ok () catalog') : enter place c' catalog = .ok () catalog' := by
  obtain ⟨hcheck, mid, hdeclare, rfl⟩ := enter_eq_ok_iff.mp h
  refine enter_eq_ok_iff.mpr ⟨hc.check_eq_ok hcheck, mid, ?_, ?_⟩
  · obtain ⟨ρ, -, rfl⟩ := hc
    rw [Clause.atoms_rename, declareAll_rename, hdeclare]
  · obtain ⟨ρ, -, rfl⟩ := hc
    rw [record_rename]

theorem enterAll_renamed {place : Nat} {cs cs' : List Clause}
    (hcs : List.Forall₂ (Clause.RenamedBy σ) cs cs')
    (h : enterAll place cs catalog = .ok () catalog') :
    enterAll place cs' catalog = .ok () catalog' := by
  induction hcs generalizing place catalog with
  | nil => exact h
  | cons hc _ ih =>
    obtain ⟨_, mid, henter, hrest⟩ := bind_eq_ok.mp h
    exact bind_eq_ok.mpr ⟨(), mid, enter_renamed hc henter, ih hrest⟩

end Catalog

/-- **Renamed clauses are accepted**, and make up a renamed program. -/
theorem Program.exists_renamed {p : Program} (hp : p.Reachable) {cs : List Clause}
    (hcs : List.Forall₂ (Clause.RenamedBy σ) p.clauses cs) :
    ∃ q, Program.ofClauses cs = .ok q ∧ p.RenamedBy σ q := by
  have henter : Catalog.enterAll ({} : Program).clauses.length cs ({} : Program).catalog =
      .ok () p.catalog := Catalog.enterAll_renamed hcs hp.enterAll_clauses
  refine ⟨⟨cs, p.catalog⟩, ?_, hcs, rfl⟩
  unfold Program.ofClauses Program.extend
  rw [henter]
  rfl

/-! ## The rules and the facts -/

/-- The rules of renamed clauses mention the same predicates. -/
theorem map_predicate_body {rs rs' : List Rule} (h : List.Forall₂ (Rule.RenamedBy σ) rs rs') :
    (rs'.flatMap Rule.body).map Atom.predicate = (rs.flatMap Rule.body).map Atom.predicate := by
  induction h with
  | nil => rfl
  | cons hr _ ih =>
    obtain ⟨ρ, rfl⟩ := hr
    rw [List.flatMap_cons, List.flatMap_cons, List.map_append, List.map_append, ih]
    exact congrArg (· ++ _) List.map_map

/-- The rules for certain predicates are renamed to the rules for the same predicates. -/
theorem filter_renamed {rs rs' : List Rule} (h : List.Forall₂ (Rule.RenamedBy σ) rs rs')
    (test : Predicate → Bool) :
    List.Forall₂ (Rule.RenamedBy σ) (rs.filter fun r => test r.head.predicate)
      (rs'.filter fun r => test r.head.predicate) := by
  refine List.rel_filter (fun r r' hr => ?_) h
  obtain ⟨ρ, rfl⟩ := hr
  exact Iff.rfl

namespace Program.RenamedBy

variable {p q : Program} (h : p.RenamedBy σ q)

include h

theorem predicates_eq : q.predicates = p.predicates := congrArg Table.keys h.catalog

theorem arity?_eq (name : Predicate) : q.arity? name = p.arity? name :=
  congrArg (fun catalog : Catalog => (catalog.find? name).map Signature.arity) h.catalog

theorem rules : List.Forall₂ (Rule.RenamedBy σ) p.rules q.rules := by
  refine List.rel_filterMap (R := Clause.RenamedBy σ) (fun c c' hc => ?_) h.clauses
  obtain ⟨ρ, rfl⟩ := hc.exists_embedding
  cases c with
  | fact a => exact .none
  | rule r => exact .some ⟨ρ, rfl⟩

theorem facts : List.Forall₂ (fun a a' => ∃ ρ, a' = Atom.rename ρ σ a) p.facts q.facts := by
  refine List.rel_filterMap (R := Clause.RenamedBy σ) (fun c c' hc => ?_) h.clauses
  obtain ⟨ρ, -, rfl⟩ := hc
  cases c with
  | fact a => exact .some ⟨ρ, rfl⟩
  | rule r => exact .none

/-- The dependencies are the same. -/
theorem dependency_eq : Dependency.ofProgram q = Dependency.ofProgram p := by
  have hreads : ∀ names : List Predicate,
      Dependency.reads names q.rules = Dependency.reads names p.rules := by
    intro names
    funext head
    have hsame := map_predicate_body (filter_renamed h.rules fun name => name = head)
    have hlook := congrArg (List.filterMap fun name => names.finIdxOf? name) hsame
    rw [List.filterMap_map, List.filterMap_map] at hlook
    exact congrArg List.eraseDups hlook
  unfold Dependency.ofProgram
  rw [h.predicates_eq, hreads]

end Program.RenamedBy

/-- **The strata of a renamed program** are the renamed strata, in the same order. -/
theorem Stratification.renamed {p q : Program} (h : p.RenamedBy σ q) :
    List.Forall₂ (Stratum.RenamedBy σ) (ofProgram p).strata (ofProgram q).strata := by
  rw [strata_ofProgram, strata_ofProgram, h.dependency_eq]
  refine List.forall₂_map_left_iff.mpr (List.forall₂_map_right_iff.mpr ?_)
  refine List.forall₂_same.mpr fun group _ => ⟨rfl, rfl, ?_⟩
  exact filter_renamed h.rules fun name =>
    name ∈ group.map (Dependency.ofProgram p).predicates.get

end Datalog
