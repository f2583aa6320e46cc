import Datalog.Proofs.Fixpoint.Lockstep
import Datalog.Proofs.Fixpoint.States
import Datalog.Storage.Unreliable
import Mathlib.Data.List.Chain

/-!
# What an evaluation finds at each call

A `Recorded` storage refuses nothing, and it writes down what the database holds before each call.
An evaluation on it is the one on the database (`Mirrors.lockstep`), and its record tells where
an evaluation on another storage would be if it were stopped at a certain call.

What a look-up finds is what the storage holds between two rounds: the joins of a round change
nothing, and when the round inserts, it does not look up any more (`quiet_evaluateRound`).  So the
record of the look-ups repeats the database of each state between rounds some number of times
(`isChain_evaluateFrom`).
-/

namespace Datalog

/-- A database with a record of the calls made. -/
structure Recorded where
  /-- The database held. -/
  database : Database
  /-- The calls made so far, the first one first, each with what the database held before it. -/
  calls : List (Operation × Database) := []

namespace Recorded

/-- Make a call and enter it into the record. -/
def record {α : Type} (op : Operation) (onDatabase : EStateM StorageError Database α) :
    EStateM StorageError Recorded α := fun s =>
  match onDatabase s.database with
  | .ok a db => .ok a ⟨db, s.calls ++ [(op, s.database)]⟩
  | .error e db => .error e ⟨db, s.calls ++ [(op, s.database)]⟩

theorem viewed_record {α : Type} (op : Operation)
    (onDatabase : EStateM StorageError Database α) (s : Recorded) :
    Storage.viewed database (record op onDatabase s) = onDatabase s.database := by
  unfold record
  cases onDatabase s.database <;> rfl

instance : Storage Recorded where
  contents := database
  create name arity := record .create (Database.createCall name arity)
  insert name t := record .insert (Database.insertCall name t)
  scan name := record .scan (Database.scanCall name)
  lookup name pattern := record .lookup (Database.lookupCall name pattern)
  create_faithful _ _ s := Or.inl (viewed_record _ _ s)
  insert_faithful _ _ s := Or.inl (viewed_record _ _ s)
  scan_faithful _ s := Or.inl (viewed_record _ _ s)
  lookup_faithful _ _ s := Or.inl (viewed_record _ _ s)

/-- What the calls of a kind have found, the first one first. -/
def found (s : Recorded) (op : Operation) : List Database :=
  (s.calls.filter fun call => call.1 = op).map Prod.snd

theorem found_concat (s : Recorded) (db : Database) (op op' : Operation) :
    found ⟨db, s.calls ++ [(op', s.database)]⟩ op =
      if op' = op then s.found op ++ [s.database] else s.found op := by
  unfold found
  by_cases hop : op' = op <;> simp [hop]

theorem found_record {α : Type} (op op' : Operation)
    (onDatabase : EStateM StorageError Database α) (s : Recorded) :
    (finalState (record op' onDatabase s)).found op =
      if op' = op then s.found op ++ [s.database] else s.found op := by
  unfold record
  cases onDatabase s.database <;> exact found_concat s _ op op'

end Recorded

/-! ## The record does not disturb -/

section Mirroring

variable {σ ε α : Type} [Storage σ]

/-- However the computation on the storage ends, the one on the database ends alike. -/
def Mirrors (x : EStateM ε σ α) (y : EStateM ε Database α) : Prop :=
  ∀ s, Storage.viewed Storage.contents (x s) = y (Storage.contents s)

theorem Mirrors.compositional :
    Compositional fun (α : Type) (x : EStateM ε σ α) y => Mirrors x y where
  pure _ _ := rfl
  throw _ _ := rfl
  bind := by
    intro α β x y f g hx hf s
    have hfirst := hx s
    cases hrun : x s with
    | ok a s' =>
      rw [hrun] at hfirst
      rw [bind_of_eq_ok _ hrun, bind_of_eq_ok _ hfirst.symm]
      exact hf a s'
    | error e s' =>
      rw [hrun] at hfirst
      rw [bind_of_eq_error _ hrun, bind_of_eq_error _ hfirst.symm]
      rfl

theorem Mirrors.adaptExcept {ε' : Type} {x : EStateM ε σ α} {y : EStateM ε Database α}
    (h : Mirrors x y) (f : ε → ε') :
    Mirrors (EStateM.adaptExcept f x) (EStateM.adaptExcept f y) := by
  intro s
  have hs := h s
  unfold EStateM.adaptExcept
  rw [← hs]
  cases x s <;> rfl

/-- Evaluation on a storage that refuses nothing is evaluation on the database it holds. -/
theorem Mirrors.lockstepOf
    (hlookup : ∀ name pattern, Mirrors (Storage.lookup (σ := σ) name pattern)
      (Storage.lookup (σ := Database) name pattern))
    (hinsert : ∀ name t, Mirrors (Storage.insert (σ := σ) name t)
      (Storage.insert (σ := Database) name t)) :
    Lockstep (fun (α : Type) (x : EStateM StorageError σ α) y => Mirrors x y)
      (fun (α : Type) (x : EStateM EvaluationError σ α) y => Mirrors x y) where
  calls := Mirrors.compositional
  lookup := hlookup
  insert := hinsert
  steps := Mirrors.compositional
  adapt hxy := hxy.adaptExcept _
  look hfg s := hfg (Storage.contents s) s

theorem Mirrors.lockstep :
    Lockstep (fun (α : Type) (x : EStateM StorageError Recorded α) y => Mirrors x y)
      (fun (α : Type) (x : EStateM EvaluationError Recorded α) y => Mirrors x y) :=
  Mirrors.lockstepOf (fun _ _ s => Recorded.viewed_record _ _ s)
    fun _ _ s => Recorded.viewed_record _ _ s

end Mirroring

/-! ## Look-ups between two states -/

section Quiet

/-- From one state to the other, the look-ups have found what the first one holds. -/
def Recorded.Quiet (a b : Recorded) : Prop :=
  ∃ m, b.found .lookup = a.found .lookup ++ List.replicate m a.database

theorem Recorded.Quiet.refl (a : Recorded) : a.Quiet a := ⟨0, (List.append_nil _).symm⟩

/-- However the computation ends, it has looked up and nothing else. -/
def LooksOnly {ε α : Type} (x : EStateM ε Recorded α) : Prop :=
  ∀ s, (finalState (x s)).database = s.database ∧ s.Quiet (finalState (x s))

theorem LooksOnly.compositional {ε : Type} :
    Compositional fun (α : Type) (x _ : EStateM ε Recorded α) => LooksOnly x where
  pure _ s := ⟨rfl, .refl s⟩
  throw _ s := ⟨rfl, .refl s⟩
  bind := by
    intro α β x _ f _ hx hf s
    refine finalState_bind (P := fun s' => s'.database = s.database ∧ s.Quiet s') (hx s) ?_
    rintro a s' - ⟨hsame, m, hm⟩
    obtain ⟨hsame', m', hm'⟩ := hf a s'
    refine ⟨hsame'.trans hsame, m + m', ?_⟩
    rw [hm', hm, hsame, List.append_assoc, List.replicate_append_replicate]

theorem looksOnly_lookup (name : Predicate) (pattern : Pattern) :
    LooksOnly (Storage.lookup (σ := Recorded) name pattern) := by
  intro s
  have hview := congrArg finalState
    (Recorded.viewed_record .lookup (Database.lookupCall name pattern) s)
  rw [Storage.finalState_viewed, Database.lookupCall, Storage.finalState_read] at hview
  refine ⟨hview, 1, ?_⟩
  exact (Recorded.found_record .lookup .lookup _ s).trans (if_pos rfl)

/-- However the computation ends, it has not looked up. -/
def LooksNever {ε α : Type} (x : EStateM ε Recorded α) : Prop :=
  ∀ s, (finalState (x s)).found .lookup = s.found .lookup

theorem LooksNever.compositional {ε : Type} :
    Compositional fun (α : Type) (x _ : EStateM ε Recorded α) => LooksNever x where
  pure _ _ := rfl
  throw _ _ := rfl
  bind := by
    intro α β x _ f _ hx hf s
    exact finalState_bind (P := fun s' => s'.found .lookup = s.found .lookup) (hx s)
      fun a s' _ h => (hf a s').trans h

theorem looksNever_insert (name : Predicate) (t : Tuple) :
    LooksNever (Storage.insert (σ := Recorded) name t) := by
  intro s
  refine (Recorded.found_record .lookup .insert _ s).trans (if_neg ?_)
  exact Operation.noConfusion

variable (settings : Settings) (place : Nat)

/-- **The look-ups of a round find what the storage holds before the round.** -/
theorem quiet_evaluateRound (s : Stratum) (p : Progress) (st : Recorded) :
    st.Quiet (finalState (evaluateRound settings place s p st)) := by
  have hjoins : LooksOnly (harvest settings s (p.stratum.rounds + 1) p.added s.rules {}) :=
    lockstep_harvest LooksOnly.compositional looksOnly_lookup settings s _ p.added s.rules {}
  rw [evaluateRound_def]
  refine finalState_bind (P := st.Quiet) (hjoins st).2 fun h st' _ hquiet => ?_
  have hcommit : LooksNever (commit h.candidates.entries ∅) :=
    lockstep_commit LooksNever.compositional (fun e _ t _ => looksNever_insert e.1 t) ∅
  rw [finalState_bind_pure]
  obtain ⟨m, hm⟩ := hquiet
  exact ⟨m, (hcommit st').trans hm⟩

theorem isChain_evaluateRounds (limit : Nat) (s : Stratum) (n : Nat) (p : Progress)
    (st : Recorded) :
    List.IsChain Recorded.Quiet (st :: (statesOfRounds settings place s n p st ++
      [finalState (evaluateRounds settings place limit s n p st)])) := by
  have hquiet := quiet_evaluateRound settings place s p st
  cases hround : evaluateRound settings place s p st with
  | error e st' =>
    rw [hround] at hquiet
    rw [statesOfRounds_of_error hround, evaluateRounds,
      bind_of_eq_error _ (adaptExcept_of_eq_error hround)]
    exact List.isChain_pair.mpr hquiet
  | ok p' st' =>
    rw [hround] at hquiet
    rw [statesOfRounds_of_round hround, evaluateRounds_of_round hround]
    refine List.isChain_cons_cons.mpr ⟨hquiet, ?_⟩
    split
    · exact List.isChain_pair.mpr (.refl st')
    · cases n with
      | zero => exact List.isChain_pair.mpr (.refl st')
      | succ n => exact isChain_evaluateRounds limit s n p' st'

theorem Stratum.isChain_evaluate (s : Stratum) (report : Report) (st : Recorded) :
    List.IsChain Recorded.Quiet (s.states settings place report st ++
      [finalState (s.evaluate settings place report st)]) := by
  rw [Stratum.states, Stratum.evaluate_def]
  split
  · exact List.isChain_pair.mpr (.refl st)
  · rw [finalState_bind_pure]
    exact isChain_evaluateRounds settings place _ s _ _ st

/-- **Every look-up finds the state between rounds that comes before it.** -/
theorem isChain_evaluateFrom (strata : List Stratum) (report : Report) (st : Recorded) :
    let states := (statesFrom settings place strata report st).flatten ++
      [finalState (evaluateFrom settings place strata report st)]
    states.head? = some st ∧ List.IsChain Recorded.Quiet states := by
  induction strata generalizing place report st with
  | nil => exact ⟨rfl, List.isChain_singleton st⟩
  | cons s strata ih =>
    have hfirst := s.isChain_evaluate settings place report st
    rw [evaluateFrom]
    cases hrun : s.evaluate settings place report st with
    | error e st' =>
      rw [hrun] at hfirst
      rw [statesFrom_of_error hrun, bind_of_eq_error _ hrun, List.flatten_singleton]
      exact ⟨rfl, hfirst⟩
    | ok report' st' =>
      rw [hrun] at hfirst
      obtain ⟨hhead, hrest⟩ := ih (place + 1) report' st'
      rw [statesFrom_of_ok hrun, bind_of_eq_ok _ hrun, List.flatten_cons, List.append_assoc]
      refine ⟨rfl, ?_⟩
      -- The state in which a stratum ends is the one in which the next one starts.
      obtain ⟨hstates, -, hlast⟩ := List.isChain_append.mp hfirst
      refine List.isChain_append.mpr ⟨hstates, hrest, fun a ha b hb => ?_⟩
      rw [hhead] at hb
      exact hlast a ha b hb

theorem Recorded.Quiet.isPrefix {a b : Recorded} (h : a.Quiet b) :
    a.found .lookup <+: b.found .lookup := by
  obtain ⟨m, hm⟩ := h
  exact ⟨_, hm.symm⟩

/-- A look-up that comes after the first state and before the second one has found what the first
one holds. -/
theorem Recorded.Quiet.getElem?_eq {a b : Recorded} (h : a.Quiet b) {k : Nat}
    (ha : (a.found .lookup).length ≤ k) (hb : k < (b.found .lookup).length) :
    (b.found .lookup)[k]? = some a.database := by
  obtain ⟨m, hm⟩ := h
  rw [hm, List.length_append, List.length_replicate] at hb
  rw [hm, List.getElem?_append_right ha, List.getElem?_replicate, if_pos (by omega)]

theorem isPrefix_of_isChain {states : List Recorded} {first last : Recorded}
    (h : List.IsChain Recorded.Quiet (first :: (states ++ [last]))) :
    first.found .lookup <+: last.found .lookup := by
  induction states generalizing first with
  | nil => exact (List.isChain_pair.mp h).isPrefix
  | cons second states ih =>
    obtain ⟨hquiet, hrest⟩ := List.isChain_cons_cons.mp h
    exact hquiet.isPrefix.trans (ih hrest)

/-- The look-up after `k` others comes after a state that holds the database, and before the next
one of the given states. -/
def LeftBefore (states : List Recorded) (k : Nat) (db : Database) : Prop :=
  ∃ i b, states[i]? = some b ∧ b.database = db ∧ (b.found .lookup).length ≤ k ∧
    ∀ b', states[i + 1]? = some b' → k < (b'.found .lookup).length

theorem leftBefore_of_isChain {states : List Recorded} {first last : Recorded}
    (h : List.IsChain Recorded.Quiet (first :: (states ++ [last]))) {k : Nat} {db : Database}
    (hfirst : (first.found .lookup).length ≤ k) (hdb : (last.found .lookup)[k]? = some db) :
    LeftBefore (first :: states) k db := by
  have hlast : k < (last.found .lookup).length := (List.getElem?_eq_some_iff.mp hdb).1
  induction states generalizing first with
  | nil =>
    have hfound := (List.isChain_pair.mp h).getElem?_eq hfirst hlast
    rw [hdb] at hfound
    exact ⟨0, first, rfl, (Option.some.inj hfound).symm, hfirst, fun b' hb' => by cases hb'⟩
  | cons second states ih =>
    obtain ⟨hquiet, hrest⟩ := List.isChain_cons_cons.mp h
    by_cases hsecond : (second.found .lookup).length ≤ k
    · obtain ⟨i, b, hb, hafter⟩ := ih hrest hsecond
      exact ⟨i + 1, b, hb, hafter⟩
    · have hfound := getElem?_of_prefix (isPrefix_of_isChain hrest)
        (hquiet.getElem?_eq hfirst (Nat.lt_of_not_le hsecond))
      rw [hdb] at hfound
      refine ⟨0, first, rfl, (Option.some.inj hfound).symm, hfirst, fun b' hb' => ?_⟩
      obtain rfl := Option.some.inj hb'
      exact Nat.lt_of_not_le hsecond

/-- **A look-up of an evaluation finds what the latest completed round has left.** -/
theorem found_lookup_evaluate (strata : Stratification) {db before : Database} {k : Nat}
    (h : ((finalState (evaluate settings strata (Recorded.mk db []))).found .lookup)[k]? =
      some before) :
    LeftBefore (roundStates settings strata (Recorded.mk db [])).flatten k before := by
  obtain ⟨hhead, hchain⟩ := isChain_evaluateFrom settings 0 strata.strata {} (Recorded.mk db [])
  unfold evaluate at h
  unfold roundStates
  cases hstates : (statesFrom settings 0 strata.strata {} (Recorded.mk db [])).flatten with
  | nil =>
    rw [hstates] at hhead
    rw [Option.some.inj hhead] at h
    cases h
  | cons first states =>
    rw [hstates] at hhead hchain
    obtain rfl : first = Recorded.mk db [] := Option.some.inj hhead
    exact leftBefore_of_isChain hchain (Nat.zero_le k) h

end Quiet

end Datalog
