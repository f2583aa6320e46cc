import Datalog.Proofs.Fixpoint.Strata

/-!
# The states between rounds

The storage goes through a definite sequence of states while strata are evaluated: the one in which
a stratum starts, and the one after each of its rounds.  Where an evaluation is interrupted, by a
limit or by the storage, is told by its place in the sequence of the evaluation that is not.

* `Stratum.states`: the states of one stratum, the first of which is the one that it starts in.
* `roundStates`: the states of each stratum, up to the end of the evaluation.
-/

namespace Datalog

section States

variable {σ : Type} [Storage σ]

/-- The state after each round of a stratum that is completed. -/
def statesOfRounds (settings : Settings) (place : Nat) (s : Stratum) :
    Nat → Progress → σ → List σ
  | allowance, p, st =>
    match evaluateRound settings place s p st with
    | .error _ _ => []
    | .ok p' st' =>
      st' ::
        if p'.added.totalTuples = 0 || !s.recursive then []
        else
          match allowance with
          | 0 => []
          | remaining + 1 => statesOfRounds settings place s remaining p' st'

/-- The state in which a stratum starts, and the state after each of its rounds. -/
def Stratum.states (settings : Settings) (place : Nat) (s : Stratum) (report : Report) (st : σ) :
    List σ :=
  st ::
    if s.rules.isEmpty then []
    else
      statesOfRounds settings place s (s.allowance settings (Storage.contents st))
        ⟨report, s.begun, ∅⟩ st

/-- The states of each stratum, from the given place on. -/
def statesFrom (settings : Settings) : Nat → List Stratum → Report → σ → List (List σ)
  | _, [], _, _ => []
  | place, s :: strata, report, st =>
    s.states settings place report st ::
      match s.evaluate settings place report st with
      | .error _ _ => []
      | .ok report' st' => statesFrom settings (place + 1) strata report' st'

/-- The states of each stratum that the evaluation reaches. -/
def roundStates (settings : Settings) (strata : Stratification) (st : σ) : List (List σ) :=
  statesFrom settings 0 strata.strata {} st

variable {settings : Settings} {place : Nat} {s : Stratum} {st st' : σ}

/-- After a round, the states go on as the rounds do. -/
theorem statesOfRounds_of_round {p p' : Progress}
    (h : evaluateRound settings place s p st = .ok p' st') (n : Nat) :
    statesOfRounds settings place s n p st =
      st' ::
        if p'.added.totalTuples = 0 || !s.recursive then []
        else
          match n with
          | 0 => []
          | n + 1 => statesOfRounds settings place s n p' st' := by
  rw [statesOfRounds, h]

theorem statesOfRounds_of_error {p : Progress} {e : StorageError}
    (h : evaluateRound settings place s p st = .error e st') (n : Nat) :
    statesOfRounds settings place s n p st = [] := by
  rw [statesOfRounds, h]

theorem statesFrom_of_ok {strata : List Stratum} {report report' : Report}
    (h : s.evaluate settings place report st = .ok report' st') :
    statesFrom settings place (s :: strata) report st =
      s.states settings place report st :: statesFrom settings (place + 1) strata report' st' := by
  rw [statesFrom, h]

theorem statesFrom_of_error {strata : List Stratum} {report : Report} {e : EvaluationError}
    (h : s.evaluate settings place report st = .error e st') :
    statesFrom settings place (s :: strata) report st = [s.states settings place report st] := by
  rw [statesFrom, h]

/-- A complete evaluation goes through the states of every stratum. -/
theorem length_statesFrom {strata : List Stratum} {report report' : Report}
    (h : evaluateFrom settings place strata report st = .ok report' st') :
    (statesFrom settings place strata report st).length = strata.length := by
  induction strata generalizing place report st with
  | nil => rfl
  | cons s strata ih =>
    obtain ⟨report₁, st₁, hfirst, hrest⟩ := bind_eq_ok.mp h
    rw [statesFrom_of_ok hfirst, List.length_cons, List.length_cons, ih hrest]

end States

end Datalog
