import Datalog.Proofs.Fixpoint.Lockstep

/-!
# Evaluation on a storage that may refuse calls

A storage may refuse any call.  Two things survive this.

* What succeeds on the storage succeeds on the database that it holds, with the same result
  (`follows_evaluateFrom`, `follows_materialize`).  So a complete evaluation is described by what is
  known about databases.
* What does not succeed has inserted only atoms that belong to every interpretation in which the
  rules hold (`grown_evaluateFrom`).  The joins of a round change nothing, so a round that is
  interrupted while it inserts has collected nothing but consequences of what was there.
-/

namespace Datalog

open Storage

variable {σ : Type} [Storage σ]

/-! ## Success -/

section Success

theorem Follows.compositional {ε : Type} :
    Compositional fun (α : Type) (x : EStateM ε σ α) y => Follows x y :=
  ⟨follows_pure, follows_throw, Follows.bind⟩

/-- Evaluation on a storage and evaluation on the database it holds. -/
theorem Follows.lockstep :
    Lockstep (fun (α : Type) (x : EStateM StorageError σ α) y => Follows x y)
      (fun (α : Type) (x : EStateM EvaluationError σ α) y => Follows x y) where
  calls := Follows.compositional
  lookup name pattern := follows_of_faithful (lookup_faithful name pattern)
  insert name t := follows_of_faithful (insert_faithful name t)
  steps := Follows.compositional
  adapt hxy := hxy.adaptExcept _
  look hfg := fun st => hfg (contents st) st

theorem follows_evaluateRound (settings : Settings) (place : Nat) (s : Stratum) (p : Progress) :
    Follows (evaluateRound (σ := σ) settings place s p)
      (evaluateRound (σ := Database) settings place s p) :=
  lockstep_evaluateRound Follows.lockstep settings place s p

theorem follows_evaluateFrom (settings : Settings) (place : Nat) (strata : List Stratum)
    (report : Report) :
    Follows (evaluateFrom (σ := σ) settings place strata report)
      (evaluateFrom (σ := Database) settings place strata report) :=
  lockstep_evaluateFrom Follows.lockstep settings place strata report

theorem follows_createAll (p : Program) (names : List Predicate) :
    Follows (createAll (σ := σ) p names) (createAll (σ := Database) p names) := by
  induction names with
  | nil => exact follows_pure _
  | cons name names ih => exact (follows_create name _).bind fun _ => ih

theorem follows_materialize (p : Program) (strata : Stratification) :
    Follows (materialize (σ := σ) p strata) (materialize (σ := Database) p strata) :=
  (follows_createAll p _).bind fun _ => lockstep_insertFacts Follows.compositional
    fun a _ t _ => follows_of_faithful (insert_faithful a.predicate t)

end Success

/-! ## What the parts of a round may change -/

section Parts

variable {G : Interpretation}

theorem Refines.compositional {ε : Type} (G : Interpretation) :
    Compositional fun (α : Type) (x : EStateM ε σ α) y => Refines G x y :=
  ⟨Refines.pure, Refines.throw, Refines.bind⟩

/-- However the joins of a round end, they change nothing. -/
theorem refines_harvest (settings : Settings) (s : Stratum) (round : Nat) (added : Database)
    (rules : List Rule) (h : Harvest) :
    Refines ∅ (harvest (σ := σ) settings s round added rules h)
      (harvest (σ := Database) settings s round added rules h) :=
  lockstep_harvest (Refines.compositional ∅) (refines_lookup ∅) settings s round added rules h

theorem refines_commit (entries : List (Predicate × List Tuple))
    (h : ∀ e ∈ entries, ∀ t ∈ e.2, (e.1, t) ∈ G) (added : Database) :
    Refines G (commit (σ := σ) entries added) (commit (σ := Database) entries added) :=
  lockstep_commit (Refines.compositional G) (fun e he t ht => refines_insert (h e he t ht)) added

theorem refines_insertFacts (as : List Atom)
    (h : ∀ a ∈ as, ∀ t, a.toTuple? = some t → (a.predicate, t) ∈ G) :
    Refines G (insertFacts (σ := σ) as) (insertFacts (σ := Database) as) :=
  lockstep_insertFacts (Refines.compositional G) fun a ha t ht => refines_insert (h a ha t ht)

end Parts

/-! ## Failure -/

section Failure

variable {settings : Settings} {s : Stratum} {p : Progress} {I : Interpretation}

/-- However a round ends, it has inserted nothing but what its joins have collected. -/
theorem grown_evaluateRound_of_candidates (settings : Settings) (place : Nat) (s : Stratum)
    (p : Progress) (st : σ) {G : Interpretation}
    (hG : ∀ h st', harvest settings s (p.stratum.rounds + 1) p.added s.rules {} st = .ok h st' →
      ∀ e ∈ h.candidates.entries, ∀ t ∈ e.2, (e.1, t) ∈ G) :
    (contents st).Grown G (contents (finalState (evaluateRound settings place s p st))) := by
  have hsame := ((refines_harvest (σ := σ) settings s (p.stratum.rounds + 1) p.added s.rules
    {}).grown st).eq_of_empty
  rw [evaluateRound_def]
  cases hrun : harvest settings s (p.stratum.rounds + 1) p.added s.rules {} st with
  | error e st' =>
    rw [hrun] at hsame
    rw [bind_of_eq_error _ hrun, finalState, ← hsame]
    exact .refl _
  | ok h st' =>
    rw [hrun] at hsame
    have hcommit := refines_commit (σ := σ) h.candidates.entries (hG h st' hrun) ∅
    rw [bind_of_eq_ok _ hrun, ← hsame]
    exact (hcommit.bind fun added => .pure (p.after settings place h added)).grown st'

/-- However a round ends, it has inserted nothing but consequences. -/
theorem grown_evaluateRound (settings : Settings) (place : Nat) {st : σ}
    (hp : p.Consistent s (contents st)) :
    (contents st).Grown (s.consequences (contents st).holds)
      (contents (finalState (evaluateRound settings place s p st))) := by
  refine grown_evaluateRound_of_candidates settings place s p st fun h st' hrun e he t ht => ?_
  obtain ⟨h', hharvest, hnodup, -, hsound, -⟩ := hp.exists_harvest settings
  have hdb := (refines_harvest (σ := σ) settings s (p.stratum.rounds + 1) p.added s.rules
    {}).follows st h st' hrun
  rw [hharvest] at hdb
  obtain ⟨rfl, -⟩ := EStateM.Result.ok.inj hdb
  exact hsound ⟨e.2, Table.find?_of_mem_entries hnodup he, ht⟩

theorem grown_evaluateRounds {place limit : Nat} {p : Progress} {st : σ}
    (hp : p.Consistent s (contents st)) (hI : (contents st).holds ⊆ I)
    (hrules : ∀ r ∈ s.rules, r.HoldsIn I) (n : Nat) :
    (contents st).Grown I
      (contents (finalState (evaluateRounds settings place limit s n p st))) := by
  have hround : (contents st).Grown I
      (contents (finalState (evaluateRound settings place s p st))) := by
    refine (grown_evaluateRound settings place hp).mono ?_
    exact Set.subset_union_right.trans (Stratum.advance_subset hrules hI)
  cases hrun : evaluateRound settings place s p st with
  | error e st' =>
    rw [hrun] at hround
    rw [evaluateRounds, bind_of_eq_error _ (adaptExcept_of_eq_error hrun)]
    exact hround
  | ok q st' =>
    rw [hrun] at hround
    obtain ⟨q', db', heq, hdone⟩ := evaluateRound_eq settings place hp
    rw [follows_evaluateRound settings place s p st q st' hrun] at heq
    obtain ⟨rfl, rfl⟩ := EStateM.Result.ok.inj heq
    rw [evaluateRounds_of_round hrun]
    split
    · exact hround
    · cases n with
      | zero => exact hround
      | succ n =>
        exact hround.trans
          (grown_evaluateRounds hdone.consistent (hdone.subset hI hrules) hrules n)

theorem Stratum.grown_evaluate (settings : Settings) (place : Nat) (report : Report) {st : σ}
    (hdb : (contents st).WellFormed) (hs : s.SupportedBy (contents st))
    (hI : (contents st).holds ⊆ I) (hrules : ∀ r ∈ s.rules, r.HoldsIn I) :
    (contents st).Grown I (contents (finalState (s.evaluate settings place report st))) := by
  rw [Stratum.evaluate_def]
  split
  · exact .refl _
  · rw [finalState_bind_pure]
    exact grown_evaluateRounds (.begin hdb hs report rfl) hI hrules _

/-- A stratum that has been evaluated on a database has inserted tuples at most. -/
theorem Stratum.grown_of_evaluate {settings : Settings} {place : Nat} {db db' : Database}
    (hdb : db.WellFormed) (hs : s.SupportedBy db) {report report' : Report}
    (h : s.evaluate settings place report db = .ok report' db') :
    Database.Grown Set.univ db db' := by
  have hgrown := Stratum.grown_evaluate (σ := Database) settings place report hdb hs
    (Set.subset_univ _) fun _ _ _ _ => Set.mem_univ _
  rw [h] at hgrown
  exact hgrown

/-- **However an evaluation ends**, it has inserted nothing that the rules do not force. -/
theorem grown_evaluateFrom (settings : Settings) (place : Nat) {strata : List Stratum}
    (report : Report) {st : σ} (hready : Ready strata (contents st))
    (hI : (contents st).holds ⊆ I) (hrules : ∀ s ∈ strata, ∀ r ∈ s.rules, r.HoldsIn I) :
    (contents st).Grown I
      (contents (finalState (evaluateFrom settings place strata report st))) := by
  induction strata generalizing place report st with
  | nil => exact .refl _
  | cons s strata ih =>
    have hfirst := Stratum.grown_evaluate settings place report hready.wellFormed hready.head hI
      (hrules s List.mem_cons_self)
    rw [evaluateFrom]
    cases hrun : s.evaluate settings place report st with
    | error e st' =>
      rw [hrun] at hfirst
      rw [bind_of_eq_error _ hrun]
      exact hfirst
    | ok report' st' =>
      rw [hrun] at hfirst
      have hgrown : (contents st).Grown I (contents st') := hfirst
      rw [bind_of_eq_ok _ hrun]
      refine hgrown.trans (ih _ _ (hready.tail hgrown) ?_ ?_)
      · exact hgrown.holds_subset_union.trans (Set.union_subset hI subset_rfl)
      · exact fun s' hs' => hrules s' (List.mem_cons_of_mem s hs')

end Failure

end Datalog
