import Datalog.Proofs.LeastModel
import Datalog.Proofs.Recorded

/-!
# A refused call cuts an evaluation short

Let a storage refuse a single call of an evaluation, say the one that looks up, or inserts, after
`k` others of its kind.  Up to that call the storage goes through what a storage goes through that
refuses nothing, and there the evaluation ends: with the reason of the refusal, and with the
database that the other storage holds just before its call (`refusal_cuts_evaluation`).

## What is compared

The evaluation without a refusal runs on a `Recorded` storage, whose record says what each call has
found.  As long as nothing has been refused, both storages hold the same database and have received
the same number of calls of the kind in question, at most `k` (`InStep`).  The next call leads to
storages in step again, or it is refused.  In that case the other evaluation may go on, but it only
adds to its record, and entry `k` stays what it is.
-/

namespace Datalog

/-- The plan that refuses one call: the one of a kind that comes after `k` others of this kind. -/
def Unreliable.refuseAfter (op : Operation) (k : Nat) (reason : String)
    (history : List Operation) (next : Operation) : Option String :=
  if next = op ∧ history.count op = k then some reason else none

/-- Nothing has been refused so far: the storages hold the same database and have received the same
number of calls. -/
structure InStep (op : Operation) (k : Nat) (reason : String) (r : Recorded) (u : Unreliable) :
    Prop where
  database : u.database = r.database
  plan : u.plan = Unreliable.refuseAfter op k reason
  count : u.history.count op = (r.found op).length
  le : (r.found op).length ≤ k

/-- The outcomes are the same, on storages in step, or the call has been refused, on the database
that the other storage has held before it. -/
inductive EndsCut (op : Operation) (k : Nat) (reason : String) {ε α : Type} (refusal : ε) :
    EStateM.Result ε Recorded α → EStateM.Result ε Unreliable α → Prop where
  | ok (a : α) {r : Recorded} {u : Unreliable} :
      InStep op k reason r u → EndsCut op k reason refusal (.ok a r) (.ok a u)
  | error (e : ε) {r : Recorded} {u : Unreliable} :
      InStep op k reason r u → EndsCut op k reason refusal (.error e r) (.error e u)
  | cut {result : EStateM.Result ε Recorded α} {u : Unreliable} :
      ((finalState result).found op)[k]? = some u.database →
        EndsCut op k reason refusal result (.error refusal u)

/-- From storages in step, the second computation is the first one, cut short by the refusal. -/
structure CutShort (op : Operation) (k : Nat) (reason : String) {ε α : Type} (refusal : ε)
    (x : EStateM ε Recorded α) (y : EStateM ε Unreliable α) : Prop where
  grows : ∀ r, r.found op <+: (finalState (x r)).found op
  ends : ∀ r u, InStep op k reason r u → EndsCut op k reason refusal (x r) (y u)

section Cut

variable {op : Operation} {k : Nat} {reason : String}

theorem InStep.call {r : Recorded} {u : Unreliable} (h : InStep op k reason r u) {next : Operation}
    (hnext : ¬(next = op ∧ u.history.count op = k)) (db : Database) :
    InStep op k reason ⟨db, r.calls ++ [(next, r.database)]⟩
      { u with database := db, history := next :: u.history } where
  database := rfl
  plan := h.plan
  count := by
    rw [Recorded.found_concat, List.count_cons, h.count]
    by_cases hop : next = op <;> simp [hop]
  le := by
    rw [Recorded.found_concat]
    split
    · next hop =>
      have hne : (r.found op).length ≠ k := fun heq => hnext ⟨hop, h.count.trans heq⟩
      have hle := h.le
      rw [List.length_append, List.length_singleton]
      omega
    · exact h.le

/-- A call is made by both storages, or it is the one that is refused. -/
theorem cutShort_call {α : Type} (next : Operation)
    (onDatabase : EStateM StorageError Database α) :
    CutShort op k reason (.backend reason) (Recorded.record next onDatabase)
      (Unreliable.attempt next onDatabase) where
  grows r := by
    rw [Recorded.found_record]
    split
    · exact List.prefix_append _ _
    · exact List.prefix_refl _
  ends r u h := by
    unfold Unreliable.attempt
    rw [h.plan, Unreliable.refuseAfter]
    by_cases hnext : next = op ∧ u.history.count op = k
    · rw [if_pos hnext]
      refine .cut ?_
      rw [Recorded.found_record, if_pos hnext.1, ← hnext.2, h.count, List.getElem?_concat_length,
        h.database]
    · rw [if_neg hnext]
      unfold Recorded.record
      rw [h.database]
      cases onDatabase r.database with
      | ok a db => exact .ok a (h.plan ▸ h.call hnext db)
      | error e db => exact .error e (h.plan ▸ h.call hnext db)

theorem CutShort.compositional {ε : Type} (refusal : ε) :
    Compositional fun (α : Type) (x : EStateM ε Recorded α) y =>
      CutShort op k reason refusal x y where
  pure a := ⟨fun r => List.prefix_refl _, fun r u h => .ok a h⟩
  throw e := ⟨fun r => List.prefix_refl _, fun r u h => .error e h⟩
  bind := by
    intro α β x y f g hx hf
    have hgrows : ∀ r, r.found op <+: (finalState ((x >>= f) r)).found op := fun r =>
      finalState_bind (P := fun r' => r.found op <+: r'.found op) (hx.grows r)
        fun a r' _ hr' => hr'.trans ((hf a).grows r')
    refine ⟨hgrows, fun r u h => ?_⟩
    have hfirst := hx.ends r u h
    generalize hxr : x r = result at hfirst
    generalize hyu : y u = result' at hfirst
    cases hfirst with
    | @ok a r' u' hstep =>
      rw [bind_of_eq_ok f hxr, bind_of_eq_ok g hyu]
      exact (hf a).ends r' u' hstep
    | @error e r' u' hstep =>
      rw [bind_of_eq_error f hxr, bind_of_eq_error g hyu]
      exact .error e hstep
    | @cut _ u' hfound =>
      rw [bind_of_eq_error g hyu]
      refine .cut ?_
      cases result with
      | ok a r' =>
        rw [bind_of_eq_ok f hxr]
        exact getElem?_of_prefix ((hf a).grows r') hfound
      | error e r' =>
        rw [bind_of_eq_error f hxr]
        exact hfound

theorem CutShort.adaptExcept {ε ε' α : Type} {refusal : ε} {x : EStateM ε Recorded α}
    {y : EStateM ε Unreliable α} (h : CutShort op k reason refusal x y) (f : ε → ε') :
    CutShort op k reason (f refusal) (EStateM.adaptExcept f x) (EStateM.adaptExcept f y) := by
  have hfinal : ∀ r, finalState (EStateM.adaptExcept f x r) = finalState (x r) := by
    intro r
    unfold EStateM.adaptExcept
    cases x r <;> rfl
  refine ⟨fun r => ?_, fun r u hstep => ?_⟩
  · rw [hfinal]
    exact h.grows r
  · have hends := h.ends r u hstep
    have hsame := hfinal r
    unfold EStateM.adaptExcept at hsame ⊢
    generalize x r = result at hends hsame
    generalize y u = result' at hends
    cases hends with
    | ok a hstep' => exact .ok a hstep'
    | error e hstep' => exact .error (f e) hstep'
    | cut hfound =>
      refine .cut ?_
      rw [hsame]
      exact hfound

theorem CutShort.lockstep (op : Operation) (k : Nat) (reason : String) :
    Lockstep (fun (α : Type) (x : EStateM StorageError Recorded α) y =>
        CutShort op k reason (.backend reason) x y)
      (fun (α : Type) (x : EStateM EvaluationError Recorded α) y =>
        CutShort op k reason (.storage (.backend reason)) x y) where
  calls := CutShort.compositional _
  lookup _ _ := cutShort_call _ _
  insert _ _ := cutShort_call _ _
  steps := CutShort.compositional _
  adapt hxy := hxy.adaptExcept _
  look := by
    intro α f g hfg
    refine ⟨fun r => (hfg r.database).grows r, fun r u h => ?_⟩
    show EndsCut op k reason _ (f r.database r) (g u.database u)
    rw [h.database]
    exact (hfg r.database).ends r u h

end Cut

/-- **A refused call cuts an evaluation short.**  Let a storage refuse the call of a kind that comes
after `k` others of this kind, and no other.  An evaluation on it is compared with the one that is
not refused anything, which is the one on the database.  If that one makes no more than `k` such
calls, both have the same result and leave the same database.  Otherwise the evaluation fails with
the reason of the refusal, and the database is what the other evaluation has before its call.  If
the call looks up, this is what the latest completed round has left, or what the evaluation started
with. -/
theorem refusal_cuts_evaluation (settings : Settings) (strata : Stratification) (db : Database)
    (op : Operation) (k : Nat) (reason : String) :
    let whole := evaluate settings strata (Recorded.mk db [])
    let cut := evaluate settings strata (Unreliable.mk db (Unreliable.refuseAfter op k reason) [])
    Storage.viewed Recorded.database whole = evaluate settings strata db ∧
    match ((finalState whole).found op)[k]? with
    | none => Storage.viewed Unreliable.database cut = evaluate settings strata db
    | some before =>
      Storage.viewed Unreliable.database cut = .error (.storage (.backend reason)) before ∧
      (op = .lookup →
        LeftBefore (roundStates settings strata (Recorded.mk db [])).flatten k before) := by
  intro whole cut
  have hwhole : Storage.viewed Recorded.database whole = evaluate settings strata db :=
    lockstep_evaluateFrom Mirrors.lockstep settings 0 strata.strata {} (Recorded.mk db [])
  have hstart : InStep op k reason (Recorded.mk db [])
      (Unreliable.mk db (Unreliable.refuseAfter op k reason) []) := ⟨rfl, rfl, rfl, Nat.zero_le k⟩
  have hends : EndsCut op k reason (.storage (.backend reason)) whole cut :=
    (lockstep_evaluateFrom (CutShort.lockstep op k reason) settings 0 strata.strata {}).ends
      _ _ hstart
  have hlookup : ∀ before, ((finalState whole).found .lookup)[k]? = some before →
      LeftBefore (roundStates settings strata (Recorded.mk db [])).flatten k before :=
    fun before h => found_lookup_evaluate settings strata h
  refine ⟨hwhole, ?_⟩
  rw [← hwhole]
  generalize whole = result at hends hlookup
  generalize cut = result' at hends
  cases hends with
  | @ok a r u hstep =>
    have hfew : ((finalState (EStateM.Result.ok (ε := EvaluationError) a r)).found op)[k]? = none :=
      List.getElem?_eq_none hstep.le
    rw [hfew]
    exact congrArg (EStateM.Result.ok a) hstep.database
  | @error e r u hstep =>
    have hfew : ((finalState (EStateM.Result.error (α := Report) e r)).found op)[k]? = none :=
      List.getElem?_eq_none hstep.le
    rw [hfew]
    exact congrArg (EStateM.Result.error e) hstep.database
  | cut hfound =>
    rw [hfound]
    refine ⟨rfl, ?_⟩
    rintro rfl
    exact hlookup _ hfound

/-- The fifth look-up of the evaluation of `paths` is made in the second round.  If it is refused,
the database holds the three tuples that it has started with and the two of the first round. -/
theorem paths_refused_in_second_round :
    let strata := Stratification.ofProgram paths
    let db := finalState (materialize paths strata seeded)
    let refusing := Unreliable.mk db (Unreliable.refuseAfter .lookup 4 "timeout") []
    ∃ before, before.totalTuples = 5 ∧
      Storage.viewed Unreliable.database (evaluate {} strata refusing) =
        .error (.storage (.backend "timeout")) before := by
  have hfound : (((finalState (evaluate {} (Stratification.ofProgram paths)
      (Recorded.mk (finalState (materialize paths (Stratification.ofProgram paths) seeded))
        []))).found .lookup)[4]?).map Database.totalTuples = some 5 := by
    rw [Stratification.ofProgram_eq_counted]
    decide +kernel
  obtain ⟨before, hbefore, htotal⟩ := Option.map_eq_some_iff.mp hfound
  obtain ⟨-, hcut⟩ := refusal_cuts_evaluation {} (Stratification.ofProgram paths)
    (finalState (materialize paths (Stratification.ofProgram paths) seeded)) .lookup 4 "timeout"
  rw [hbefore] at hcut
  exact ⟨before, htotal, hcut.1⟩

end Datalog
