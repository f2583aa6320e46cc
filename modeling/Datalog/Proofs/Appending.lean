import Datalog.Proofs.Database.Calls
import Datalog.Proofs.Interruption

/-!
# Evaluation only appends

Whatever the strata are, whatever relations there are, whatever calls are refused and however an
evaluation ends: the relations keep their names, their order and their arities, and every relation
keeps its tuples in their places, with new ones only behind them.  A relation has new tuples only if
it is the head predicate of a rule in a stratum that the evaluation has reached
(`evaluation_only_appends`).

* `Stratum.headAtoms`: the atoms over the predicates that the rules of a stratum define.
* `Reaches`: the strata before a given one have been evaluated without an error.
* `reachedAtoms`: the atoms that an evaluation may insert.

## Why nothing has to be known about the database

What a round inserts has been collected by its joins, and the joins collect instances of heads
only.  This is so even if a body reads a relation that is missing, since then the joins fail and
nothing is inserted at all.  So the argument needs no invariant about the database, and it goes
through for a single insertion, a round and a stratum in the same way, whether the last of them is
complete or not.
-/

namespace Datalog

open Storage

variable {σ : Type} [Storage σ]

/-! ## What the joins of a round collect -/

/-- The atoms over the predicates that the rules of a stratum define. -/
def Stratum.headAtoms (s : Stratum) : Interpretation := {g | ∃ r ∈ s.rules, r.head.predicate = g.1}

theorem Harvest.mem_keys_add {h : Harvest} {r : Rule} {derived : List Tuple} {n : Nat}
    {name : Predicate} (hname : name ∈ (h.add r derived n).candidates.keys) :
    name ∈ h.candidates.keys ∨ r.head.predicate = name := by
  unfold add at hname
  simp only at hname
  split at hname
  · exact Or.inl hname
  · exact (Table.mem_keys_upsert.mp hname).imp_right Eq.symm

/-- The joins of rules collect tuples for their heads, on any storage. -/
theorem head_of_harvest {settings : Settings} {s : Stratum} {round : Nat} {added : Database}
    {rules : List Rule} {h h' : Harvest} {st st' : σ}
    (hrun : harvest settings s round added rules h st = .ok h' st') {name : Predicate}
    (hname : name ∈ h'.candidates.keys) :
    name ∈ h.candidates.keys ∨ ∃ r ∈ rules, r.head.predicate = name := by
  induction rules generalizing h st with
  | nil =>
    obtain ⟨rfl, -⟩ := pure_eq_ok.mp hrun
    exact Or.inl hname
  | cons r rules ih =>
    obtain ⟨result, mid, -, hrest⟩ := bind_eq_ok.mp hrun
    cases result with
    | none =>
      rcases ih hrest with hkept | ⟨r', hr', hhead⟩
      · exact Or.inl hkept
      · exact Or.inr ⟨r', List.mem_cons_of_mem r hr', hhead⟩
    | some result =>
      rcases ih hrest with hkept | ⟨r', hr', hhead⟩
      · exact (Harvest.mem_keys_add hkept).imp_right fun hhead => ⟨r, List.mem_cons_self, hhead⟩
      · exact Or.inr ⟨r', List.mem_cons_of_mem r hr', hhead⟩

/-! ## One stratum -/

section Stratum

variable (settings : Settings) (place : Nat) (s : Stratum)

/-- **However a round ends**, it has inserted tuples of heads only. -/
theorem grown_headAtoms_evaluateRound (p : Progress) (st : σ) :
    (contents st).Grown s.headAtoms
      (contents (finalState (evaluateRound settings place s p st))) := by
  refine grown_evaluateRound_of_candidates settings place s p st fun h st' hrun e he t _ => ?_
  exact (head_of_harvest hrun (List.mem_map_of_mem he)).resolve_left List.not_mem_nil

/-- **However the rounds of a stratum end**, they have inserted tuples of heads only. -/
theorem grown_headAtoms_evaluateRounds (limit : Nat) (n : Nat) (p : Progress) (st : σ) :
    (contents st).Grown s.headAtoms
      (contents (finalState (evaluateRounds settings place limit s n p st))) := by
  have hround := grown_headAtoms_evaluateRound settings place s p st
  cases hrun : evaluateRound settings place s p st with
  | error e st' =>
    rw [hrun] at hround
    rw [evaluateRounds, bind_of_eq_error _ (adaptExcept_of_eq_error hrun)]
    exact hround
  | ok q st' =>
    rw [hrun] at hround
    rw [evaluateRounds_of_round hrun]
    split
    · exact hround
    · cases n with
      | zero => exact hround
      | succ n => exact hround.trans (grown_headAtoms_evaluateRounds limit n q st')
termination_by n

theorem grown_headAtoms_evaluate (report : Report) (st : σ) :
    (contents st).Grown s.headAtoms
      (contents (finalState (s.evaluate settings place report st))) := by
  rw [Stratum.evaluate_def]
  split
  · exact .refl _
  · rw [finalState_bind_pure]
    exact grown_headAtoms_evaluateRounds settings place s _ _ _ st

end Stratum

/-! ## All strata -/

/-- An evaluation reaches the stratum at place `i` of the given ones: those before it are evaluated
without an error. -/
def Reaches (settings : Settings) (place : Nat) (strata : List Stratum) (report : Report) (st : σ)
    (i : Nat) : Prop :=
  ∃ report' st', evaluateFrom settings place (strata.take i) report st = .ok report' st'

/-- The atoms over the predicates that the rules of the strata define, up to the last stratum that
an evaluation reaches. -/
def reachedAtoms (settings : Settings) (place : Nat) (strata : List Stratum) (report : Report)
    (st : σ) : Interpretation :=
  {g | ∃ i s, strata[i]? = some s ∧ Reaches settings place strata report st i ∧ g ∈ s.headAtoms}

theorem Reaches.cons {settings : Settings} {place : Nat} {s : Stratum} {strata : List Stratum}
    {report report₁ : Report} {st st₁ : σ} {i : Nat}
    (hfirst : s.evaluate settings place report st = .ok report₁ st₁)
    (h : Reaches settings (place + 1) strata report₁ st₁ i) :
    Reaches settings place (s :: strata) report st (i + 1) := by
  obtain ⟨report', st', hrun⟩ := h
  refine ⟨report', st', ?_⟩
  rw [List.take_succ_cons, evaluateFrom, bind_of_eq_ok _ hfirst]
  exact hrun

/-- **However an evaluation ends**, it has inserted tuples only for the heads of the strata that it
has reached. -/
theorem grown_reachedAtoms_evaluateFrom (settings : Settings) (place : Nat) (strata : List Stratum)
    (report : Report) (st : σ) :
    (contents st).Grown (reachedAtoms settings place strata report st)
      (contents (finalState (evaluateFrom settings place strata report st))) := by
  induction strata generalizing place report st with
  | nil => exact .refl _
  | cons s strata ih =>
    have hfirst := (grown_headAtoms_evaluate settings place s report st).mono
      (H := reachedAtoms settings place (s :: strata) report st)
      fun g hg => ⟨0, s, rfl, ⟨report, st, rfl⟩, hg⟩
    rw [evaluateFrom]
    cases hrun : s.evaluate settings place report st with
    | error e st' =>
      rw [hrun] at hfirst
      rw [bind_of_eq_error _ hrun]
      exact hfirst
    | ok report₁ st₁ =>
      rw [hrun] at hfirst
      rw [bind_of_eq_ok _ hrun]
      refine hfirst.trans ((ih (place + 1) report₁ st₁).mono ?_)
      rintro g ⟨i, s', hs', hreaches, hg⟩
      exact ⟨i + 1, s', hs', hreaches.cons hrun, hg⟩

/-- What a listing of a relation shows after insertions. -/
theorem Database.Grown.scan_eq_ok {G : Interpretation} {db db' : Database} (h : db.Grown G db')
    {name : Predicate} {ts : List Tuple} (hscan : db.scan name = .ok ts) :
    ∃ more, db'.scan name = .ok (ts ++ more) ∧ (more ≠ [] → ∃ g ∈ G, g.1 = name) := by
  obtain ⟨k, hk⟩ : ∃ k, db.arity? name = some k := by
    cases harity : db.arity? name with
    | none =>
      rw [Database.scan_of_arity?_eq_none harity] at hscan
      cases hscan
    | some k => exact ⟨k, rfl⟩
  rw [Database.scan_of_arity?_eq_some hk] at hscan
  obtain rfl := Except.ok.inj hscan
  obtain ⟨more, hmore⟩ := h.prefix_tuples name
  refine ⟨more, ?_, fun hne => ?_⟩
  · rw [Database.scan_of_arity?_eq_some ((h.arity? name).trans hk), hmore]
  · by_contra hnone
    push Not at hnone
    have hsame := Database.tuples_congr (h.find?_of_forall_ne hnone)
    rw [← hmore, List.append_right_eq_self] at hsame
    exact hne hsame

/-- **Evaluation only appends**, on every way out.  Let any strata be evaluated on any storage, with
any settings; the storage may refuse any call.  Whether the evaluation succeeds, exceeds its limit
or fails with an error of the storage, the relations, their order and their arities are as before;
what a scan of a relation gives is what it gave before, followed by the new tuples; and if there are
any, the relation is the head predicate of a rule in a stratum that the evaluation has reached, that
is, one for which all strata before it have been evaluated without an error. -/
theorem evaluation_only_appends (settings : Settings) (strata : Stratification) (st : σ) :
    let before := contents st
    let after := contents (finalState (evaluate settings strata st))
    after.names = before.names ∧ (∀ name, after.arity? name = before.arity? name) ∧
    ∀ name ts, before.scan name = .ok ts → ∃ more, after.scan name = .ok (ts ++ more) ∧
      (more ≠ [] → ∃ i s, strata.strata[i]? = some s ∧
        succeeds (evaluateFrom settings 0 (strata.strata.take i) {} st) = true ∧
        ∃ r ∈ s.rules, r.head.predicate = name) := by
  intro before after
  have hgrown : before.Grown (reachedAtoms settings 0 strata.strata {} st) after :=
    grown_reachedAtoms_evaluateFrom settings 0 strata.strata {} st
  refine ⟨hgrown.names, hgrown.arity?, fun name ts hscan => ?_⟩
  obtain ⟨more, hmore, hnew⟩ := hgrown.scan_eq_ok hscan
  refine ⟨more, hmore, fun hne => ?_⟩
  obtain ⟨g, ⟨i, s, hs, ⟨report, st', hrun⟩, r, hr, hhead⟩, rfl⟩ := hnew hne
  refine ⟨i, s, hs, ?_, r, hr, hhead⟩
  rw [hrun]
  rfl

/-- A database that is prepared for `paths` and accepts one more tuple. -/
def nearlyFull : Unreliable :=
  ⟨finalState (materialize paths (Stratification.ofProgram paths) seeded),
    Unreliable.refuseAfter .insert 1 "full", []⟩

/-- The storage is full when the first round has inserted one of two paths: this path stays, and
nothing else has changed. -/
theorem path_appended_before_refusal :
    let result := evaluate {} (Stratification.ofProgram paths) nearlyFull
    succeeds result = false ∧ nearlyFull.database.scan "path" = .ok [] ∧
      (finalState result).database.names = nearlyFull.database.names ∧
      (finalState result).database.scan "path" = .ok ([] ++ [["b", "c"]]) ∧
      ∃ (i : Nat) (s : Stratum), (Stratification.ofProgram paths).strata[i]? = some s ∧
        ∃ r ∈ s.rules, r.head.predicate = "path" := by
  have hscan : nearlyFull.database.scan "path" = .ok [] := by
    rw [nearlyFull, Stratification.ofProgram_eq_counted]
    decide +kernel
  have hafter : (Storage.contents (finalState (evaluate {} (Stratification.ofProgram paths)
      nearlyFull))).scan "path" = .ok [["b", "c"]] := by
    rw [nearlyFull, Stratification.ofProgram_eq_counted]
    decide +kernel
  obtain ⟨hnames, -, hscans⟩ :=
    evaluation_only_appends {} (Stratification.ofProgram paths) nearlyFull
  obtain ⟨more, hmore, hreached⟩ := hscans "path" [] hscan
  have hnew : more = [["b", "c"]] := Except.ok.inj (hmore.symm.trans hafter)
  have hnonempty : more ≠ [] := hnew ▸ List.cons_ne_nil _ _
  obtain ⟨i, s, hs, -, hhead⟩ := hreached hnonempty
  refine ⟨?_, hscan, hnames, hafter, i, s, hs, hhead⟩
  rw [nearlyFull, Stratification.ofProgram_eq_counted]
  decide +kernel

end Datalog
