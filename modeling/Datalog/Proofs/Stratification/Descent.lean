import Datalog.Proofs.Digraph.Descent
import Datalog.Proofs.Program.Catalog
import Datalog.Proofs.Stratification

/-!
# The order of the strata

Strata come in the order in which a recursive descent through the dependencies hands them out.  It
tries the predicates in the order of their first occurrences, and goes from each predicate to those
that its rules mention, in the order in which they mention them first.  Hence strata that have
nothing to do with each other stand in the order of the text, and all others dependencies first.
-/

namespace Datalog

/-- The edges of a predicate lead to the predicates that its rules mention, in the order in which
they are mentioned first. -/
theorem Dependency.map_nameOf_out {p : Program} (hp : p.Valid)
    (v : Fin (ofProgram p).predicates.length) :
    ((ofProgram p).graph.out v).map (ofProgram p).nameOf =
      (((p.rules.filter fun r => r.head.predicate = (ofProgram p).nameOf v).flatMap Rule.body).map
        Atom.predicate).eraseDups := by
  have hnodup : (ofProgram p).predicates.Nodup := hp.nodup
  have hout : (ofProgram p).graph.out v =
      reads (ofProgram p).predicates p.rules ((ofProgram p).nameOf v) :=
    Vector.getElem_ofFn v.isLt
  have hknown : ∀ r ∈ p.rules, ∀ b ∈ r.body,
      ((ofProgram p).predicates.finIdxOf? b.predicate).map (ofProgram p).nameOf =
        some b.predicate := by
    intro r hr b hb
    obtain ⟨u, hu⟩ := exists_nameOf (hp.body_mem_predicates hr hb)
    rw [(finIdxOf?_eq_some_iff hnodup).mpr hu, Option.map_some, hu]
  rw [hout, reads, ← eraseDups_map (nameOf_injective hp), List.map_filterMap]
  refine congrArg List.eraseDups ?_
  rw [← List.filterMap_eq_map]
  refine List.filterMap_congr fun b hb => ?_
  obtain ⟨r, hr, hbody⟩ := List.mem_flatMap.mp hb
  exact hknown r (List.mem_filter.mp hr).1 b hbody

namespace Stratification

/-- **The strata are those of a recursive descent, in its order.**  On every graph, the search with
a work stack hands out the same components as the recursion that tries the nodes in ascending order
and goes along the edges of each node in their order.  In the dependency graph of a program, the
nodes are the predicates in the order of their first occurrences, and the edges of a predicate lead
to those that its rules mention, in the order in which they mention them first.  The strata are the
components that the recursion hands out for this graph, in the same order, and none of them depends
on a later one. -/
theorem strata_found_by_descent :
    (∀ (n : Nat) (g : Digraph n), g.components = g.descend) ∧
    ∀ p : Program, p.Reachable →
      p.predicates = ((Clause.occurrences p.clauses).map Atom.predicate).eraseDups ∧
      (∀ v, ((Dependency.ofProgram p).graph.out v).map p.predicates.get =
        (((p.rules.filter fun r => r.head.predicate = p.predicates.get v).flatMap Rule.body).map
          Atom.predicate).eraseDups) ∧
      (ofProgram p).strata.map Stratum.predicates =
        (Dependency.ofProgram p).graph.descend.map (List.map p.predicates.get) ∧
      (ofProgram p).strata.Pairwise fun s s' =>
        ∀ a ∈ s.predicates, ∀ b ∈ s'.predicates, ¬ Relation.ReflTransGen p.DependsOn a b := by
  refine ⟨fun _ g => g.components_eq_descend, fun p hp => ⟨hp.lists.keys, ?_, ?_, sorted hp.valid⟩⟩
  · exact Dependency.map_nameOf_out hp.valid
  · rw [← Digraph.components_eq_descend, strata_ofProgram, List.map_map]
    rfl

/-- The numbers that a rule for `even` mentions come before it, in the order in which they are
mentioned, and `odd`, which leads back to it, comes together with it. -/
theorem evenOdd_found_by_descent :
    evenOdd.Reachable ∧ (Dependency.ofProgram evenOdd).graph.descend.map
      (List.map evenOdd.predicates.get) = [["zero"], ["next"], ["even", "odd"]] := by
  have hreachable : evenOdd.Reachable := .extend _ .empty
  obtain ⟨-, -, hstrata, -⟩ := strata_found_by_descent.2 evenOdd hreachable
  exact ⟨hreachable, hstrata.symm.trans
    (by rw [Stratification.ofProgram_eq_counted]; decide +kernel)⟩

end Stratification

end Datalog
