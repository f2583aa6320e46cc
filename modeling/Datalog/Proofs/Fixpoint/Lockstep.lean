import Datalog.Proofs.Fixpoint.Strata

/-!
# Evaluation on two storages

Evaluation is defined once for all storages: it is made of the calls of the storage, of looks at
what it holds, and of computations in sequence.  So what relates the calls of two storages relates
whole evaluations on them, if the relation is kept by sequencing.

* `Compositional R`: the relation `R` between computations on two storages is kept by sequencing.
* `Lockstep R Q`: besides, the calls are related by `R`, and computations of an evaluation by `Q` if
  they are by `R`.

There are two relations, because the calls of a round fail for reasons of the storage, and an
evaluation may also exceed its limit.  The joins of a round make no call but look-ups, and a round
inserts nothing but what its joins have collected; hence the lemmas ask for the calls that are made
and for no other.
-/

namespace Datalog

open Storage

/-- A relation between computations on two storages that is kept by sequencing. -/
structure Compositional {ε σ τ : Type}
    (R : (α : Type) → EStateM ε σ α → EStateM ε τ α → Prop) : Prop where
  pure : ∀ {α : Type} (a : α), R α (Pure.pure a) (Pure.pure a)
  throw : ∀ {α : Type} (e : ε), R α (MonadExcept.throw e) (MonadExcept.throw e)
  bind : ∀ {α β : Type} {x : EStateM ε σ α} {y : EStateM ε τ α} {f : α → EStateM ε σ β}
    {g : α → EStateM ε τ β}, R α x y → (∀ a, R β (f a) (g a)) → R β (x >>= f) (y >>= g)

theorem Compositional.map {ε σ τ α β : Type}
    {R : (α : Type) → EStateM ε σ α → EStateM ε τ α → Prop} (hR : Compositional R)
    {x : EStateM ε σ α} {y : EStateM ε τ α} (h : R α x y) (f : α → β) :
    R β (f <$> x) (f <$> y) := by
  rw [← bind_pure_comp, ← bind_pure_comp]
  exact hR.bind h fun a => hR.pure (f a)

variable {σ τ : Type} [Storage σ] [Storage τ]

/-! ## Joins -/

section Joins

variable {R : (α : Type) → EStateM StorageError σ α → EStateM StorageError τ α → Prop}
  (hR : Compositional R)
  (hlookup : ∀ name pattern, R _ (lookup name pattern) (lookup name pattern))

include hR hlookup

theorem lockstep_find (range : Range) (name : Predicate) (pattern : Pattern) :
    R _ (range.find name pattern) (range.find name pattern) := by
  cases range with
  | stored => exact hlookup name pattern
  | recent added =>
    unfold Range.find
    simp only
    split
    · exact hR.pure _
    · split
      · exact hR.pure _
      · exact hR.throw _

theorem lockstep_extendAll (range : Range) (a : Atom) (ss : List Substitution) :
    R _ (extendAll range a ss) (extendAll range a ss) := by
  induction ss with
  | nil => exact hR.pure _
  | cons s ss ih =>
    exact hR.bind (lockstep_find hR hlookup range a.predicate (a.pattern s)) fun found =>
      hR.bind ih fun rest => hR.pure _

theorem lockstep_join (body : List (Range × Atom)) (ss : List Substitution) :
    R _ (join body ss) (join body ss) := by
  induction body generalizing ss with
  | nil => exact hR.pure _
  | cons p rest ih =>
    exact hR.bind (lockstep_extendAll hR hlookup p.1 p.2 ss) fun extended =>
      hR.bind (ih extended.1) fun joined => hR.pure _

theorem lockstep_derive (r : Rule) (body : List (Range × Atom)) :
    R _ (r.derive body) (r.derive body) :=
  hR.bind (lockstep_join hR hlookup body [∅]) fun _ => hR.pure _

theorem lockstep_deriveAgain (r : Rule) (added : Database) (positions : List Nat) :
    R _ (deriveAgain r added positions) (deriveAgain r added positions) := by
  induction positions with
  | nil => exact hR.pure _
  | cons i positions ih =>
    exact hR.bind (lockstep_derive hR hlookup r (r.overRecent i added)) fun derived =>
      hR.bind ih fun others => hR.pure _

theorem lockstep_deriveInRound (settings : Settings) (s : Stratum) (round : Nat)
    (added : Database) (r : Rule) :
    R _ (deriveInRound settings s round added r) (deriveInRound settings s round added r) := by
  unfold deriveInRound
  split
  · exact hR.map (lockstep_derive hR hlookup r r.overStored) some
  · split
    · split
      · exact hR.map (lockstep_derive hR hlookup r r.overStored) some
      · exact hR.pure _
    · exact hR.map (lockstep_deriveAgain hR hlookup r added (s.localPositions r)) some

theorem lockstep_harvest (settings : Settings) (s : Stratum) (round : Nat) (added : Database)
    (rules : List Rule) (h : Harvest) :
    R _ (harvest settings s round added rules h) (harvest settings s round added rules h) := by
  induction rules generalizing h with
  | nil => exact hR.pure _
  | cons r rules ih =>
    refine hR.bind (lockstep_deriveInRound hR hlookup settings s round added r) fun result => ?_
    cases result with
    | none => exact ih h
    | some result => exact ih _

end Joins

/-! ## Insertions -/

section Insertions

variable {R : (α : Type) → EStateM StorageError σ α → EStateM StorageError τ α → Prop}
  (hR : Compositional R)

include hR

theorem lockstep_commitTuples {name : Predicate} {ts : List Tuple}
    (hinsert : ∀ t ∈ ts, R _ (insert name t) (insert name t)) (added : Database) :
    R _ (commitTuples name ts added) (commitTuples name ts added) := by
  induction ts generalizing added with
  | nil => exact hR.pure _
  | cons t ts ih =>
    have hts : ∀ u ∈ ts, R _ (insert name u) (insert name u) :=
      fun u hu => hinsert u (List.mem_cons_of_mem t hu)
    refine hR.bind (hinsert t List.mem_cons_self) fun isNew => ?_
    cases isNew with
    | false => exact ih hts added
    | true =>
      simp only [if_true]
      split
      · exact ih hts _
      · exact hR.throw _

theorem lockstep_commit {entries : List (Predicate × List Tuple)}
    (hinsert : ∀ e ∈ entries, ∀ t ∈ e.2, R _ (insert e.1 t) (insert e.1 t)) (added : Database) :
    R _ (commit entries added) (commit entries added) := by
  induction entries generalizing added with
  | nil => exact hR.pure _
  | cons e entries ih =>
    exact hR.bind (lockstep_commitTuples hR (hinsert e List.mem_cons_self) added)
      (ih fun e' he' => hinsert e' (List.mem_cons_of_mem e he'))

theorem lockstep_insertFacts {as : List Atom}
    (hinsert : ∀ a ∈ as, ∀ t, a.toTuple? = some t →
      R _ (insert a.predicate t) (insert a.predicate t)) :
    R _ (insertFacts as) (insertFacts as) := by
  induction as with
  | nil => exact hR.pure _
  | cons a as ih =>
    have has := ih fun a' ha' => hinsert a' (List.mem_cons_of_mem a ha')
    unfold insertFacts
    cases ht : a.toTuple? with
    | none => exact has
    | some t =>
      exact hR.bind (hinsert a List.mem_cons_self t ht) fun isNew => hR.bind has fun more =>
        hR.pure _

end Insertions

/-! ## Rounds and strata -/

/-- Calls related by `R` and evaluations related by `Q`. -/
structure Lockstep (R : (α : Type) → EStateM StorageError σ α → EStateM StorageError τ α → Prop)
    (Q : (α : Type) → EStateM EvaluationError σ α → EStateM EvaluationError τ α → Prop) :
    Prop where
  calls : Compositional R
  lookup : ∀ name pattern, R _ (lookup name pattern) (lookup name pattern)
  insert : ∀ name t, R _ (insert name t) (insert name t)
  steps : Compositional Q
  adapt : ∀ {α : Type} {x : EStateM StorageError σ α} {y : EStateM StorageError τ α}, R _ x y →
    Q _ (EStateM.adaptExcept EvaluationError.storage x)
      (EStateM.adaptExcept EvaluationError.storage y)
  look : ∀ {α : Type} {f : Database → EStateM EvaluationError σ α}
    {g : Database → EStateM EvaluationError τ α}, (∀ db, Q _ (f db) (g db)) →
    Q _ (get >>= fun st => f (contents st)) (get >>= fun st => g (contents st))

section Rounds

variable {R : (α : Type) → EStateM StorageError σ α → EStateM StorageError τ α → Prop}
  {Q : (α : Type) → EStateM EvaluationError σ α → EStateM EvaluationError τ α → Prop}
  (h : Lockstep R Q)

include h

theorem lockstep_evaluateRound (settings : Settings) (place : Nat) (s : Stratum) (p : Progress) :
    R _ (evaluateRound settings place s p) (evaluateRound settings place s p) := by
  rw [evaluateRound_def, evaluateRound_def]
  exact h.calls.bind (lockstep_harvest h.calls h.lookup settings s _ p.added s.rules {})
    fun hv => h.calls.bind (lockstep_commit h.calls (fun e _ t _ => h.insert e.1 t) ∅)
      fun added => h.calls.pure (p.after settings place hv added)

theorem lockstep_evaluateRounds (settings : Settings) (place limit : Nat) (s : Stratum) (n : Nat)
    (p : Progress) :
    Q _ (evaluateRounds settings place limit s n p)
      (evaluateRounds settings place limit s n p) := by
  induction n generalizing p with
  | zero =>
    unfold evaluateRounds
    refine h.steps.bind (h.adapt (lockstep_evaluateRound h settings place s p)) fun q => ?_
    split
    · exact h.steps.pure q
    · exact h.steps.throw _
  | succ n ih =>
    unfold evaluateRounds
    refine h.steps.bind (h.adapt (lockstep_evaluateRound h settings place s p)) fun q => ?_
    split
    · exact h.steps.pure q
    · exact ih q

theorem Stratum.lockstep_evaluate (settings : Settings) (place : Nat) (s : Stratum)
    (report : Report) :
    Q _ (s.evaluate settings place report) (s.evaluate settings place report) := by
  unfold Stratum.evaluate
  split
  · exact h.steps.pure _
  · exact h.look fun db =>
      h.steps.bind (lockstep_evaluateRounds h settings place _ s _ _) fun p => h.steps.pure p.closed

theorem lockstep_evaluateFrom (settings : Settings) (place : Nat) (strata : List Stratum)
    (report : Report) :
    Q _ (evaluateFrom settings place strata report)
      (evaluateFrom settings place strata report) := by
  induction strata generalizing place report with
  | nil => exact h.steps.pure _
  | cons s strata ih =>
    exact h.steps.bind (s.lockstep_evaluate h settings place report) fun report' =>
      ih (place + 1) report'

end Rounds

end Datalog
