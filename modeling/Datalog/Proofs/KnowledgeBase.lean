import Datalog.KnowledgeBase
import Datalog.Proofs.Program

/-!
# What operations do to a knowledge base

A knowledge base starts without clauses, over any storage, and its owner may add clauses, run it,
put questions to it, and use the storage directly.  Only adding clauses touches the program, so in
every state that comes about in this way the program is one that batches can build
(`KnowledgeBase.Reachable.program`).

It follows that clauses which are refused leave no trace, wherever the refusal strikes
(`KnowledgeBase.refused_clauses_change_nothing`): a text that cannot be read is refused before the
program is looked at, and a batch that violates a condition is withdrawn from a catalog in which
everything new stands behind everything old.
-/

namespace Datalog

namespace KnowledgeBase

variable {σ : Type} {kb : KnowledgeBase σ}

section Calls

variable {ε ε' α : Type} (wrap : ε → ε') (call : EStateM ε σ α) (kb : KnowledgeBase σ)

theorem finalState_onStorage :
    finalState (onStorage wrap call kb) = { kb with storage := finalState (call kb.storage) } := by
  unfold onStorage
  cases call kb.storage <;> rfl

theorem program_onStorage : (finalState (onStorage wrap call kb)).program = kb.program := by
  rw [finalState_onStorage]

theorem succeeds_onStorage :
    succeeds (onStorage wrap call kb) = succeeds (call kb.storage) := by
  unfold onStorage
  cases call kb.storage <;> rfl

theorem onStorage_eq_ok {kb' : KnowledgeBase σ} {a : α} (h : onStorage wrap call kb = .ok a kb') :
    ∃ st, call kb.storage = .ok a st ∧ kb' = { kb with storage := st } := by
  unfold onStorage at h
  cases hrun : call kb.storage with
  | ok b st =>
    rw [hrun] at h
    obtain ⟨rfl, rfl⟩ := EStateM.Result.ok.inj h
    exact ⟨st, rfl, rfl⟩
  | error e st =>
    rw [hrun] at h
    cases h

theorem onStorage_of_eq_ok {st : σ} {a : α} (h : call kb.storage = .ok a st) :
    onStorage wrap call kb = .ok a { kb with storage := st } := by
  unfold onStorage
  rw [h]

theorem onStorage_of_eq_error {st : σ} {e : ε} (h : call kb.storage = .error e st) :
    onStorage wrap call kb = .error (wrap e) { kb with storage := st } := by
  unfold onStorage
  rw [h]

end Calls

/-! ## Operations and the program -/

theorem finalState_add (batch : List Clause) (kb : KnowledgeBase σ) :
    finalState (add batch kb) =
      { kb with program := finalState (Program.extend batch kb.program) } := by
  unfold add
  cases Program.extend batch kb.program <;> rfl

theorem succeeds_add (batch : List Clause) (kb : KnowledgeBase σ) :
    succeeds (add batch kb) = succeeds (Program.extend batch kb.program) := by
  unfold add
  cases Program.extend batch kb.program <;> rfl

/-- Loading a text adds its clauses, or nothing if the text cannot be read. -/
theorem load_def (text : String) (kb : KnowledgeBase σ) :
    load text kb =
      match Clause.listOfText text with
      | .ok batch => add batch kb
      | .error e => .error (.load e) kb := by
  unfold load
  cases Clause.listOfText text <;> rfl

section Questions

variable [Storage σ]

theorem program_run (kb : KnowledgeBase σ) : (finalState (run kb)).program = kb.program := by
  let SameProgram : KnowledgeBase σ → Prop := fun kb' => kb'.program = kb.program
  unfold run
  rw [get_bind]
  cases kb.settings.validate with
  | error e => rfl
  | ok u =>
    refine finalState_bind (P := SameProgram) ?_ fun _ kb₁ _ h₁ => ?_
    · exact program_onStorage _ _ kb
    · refine finalState_bind (P := SameProgram) ?_ fun _ _ _ h₂ => h₂
      exact (program_onStorage _ _ kb₁).trans h₁

theorem program_facts (name : Predicate) (kb : KnowledgeBase σ) :
    (finalState (facts name kb)).program = kb.program := by
  unfold facts
  cases Storage.scan name kb.storage <;> rfl

theorem program_query (a : Atom) (kb : KnowledgeBase σ) :
    (finalState (query a kb)).program = kb.program := by
  unfold query
  exact program_onStorage _ _ kb

theorem program_queryText (text : String) (kb : KnowledgeBase σ) :
    (finalState (queryText text kb)).program = kb.program := by
  unfold queryText
  cases Atom.ofText text with
  | ok a => exact program_query a kb
  | error e => rfl

theorem program_ask (text : String) (kb : KnowledgeBase σ) :
    (finalState (ask text kb)).program = kb.program := by
  unfold ask
  rw [finalState_bind_pure]
  exact program_queryText text kb

end Questions

/-- Knowledge bases that come about by any operations, whether these succeed or fail.  Whoever holds
the storage may also change it directly, in any way. -/
inductive Reachable [Storage σ] : KnowledgeBase σ → Prop where
  | start (storage : σ) (settings : Settings) :
      Reachable { storage := storage, settings := settings }
  | load {kb : KnowledgeBase σ} (text : String) :
      Reachable kb → Reachable (finalState (KnowledgeBase.load text kb))
  | addFact {kb : KnowledgeBase σ} (a : Atom) :
      Reachable kb → Reachable (finalState (KnowledgeBase.addFact a kb))
  | addRule {kb : KnowledgeBase σ} (r : Rule) :
      Reachable kb → Reachable (finalState (KnowledgeBase.addRule r kb))
  | run {kb : KnowledgeBase σ} : Reachable kb → Reachable (finalState (KnowledgeBase.run kb))
  | facts {kb : KnowledgeBase σ} (name : Predicate) :
      Reachable kb → Reachable (finalState (KnowledgeBase.facts name kb))
  | query {kb : KnowledgeBase σ} (a : Atom) :
      Reachable kb → Reachable (finalState (KnowledgeBase.query a kb))
  | queryText {kb : KnowledgeBase σ} (text : String) :
      Reachable kb → Reachable (finalState (KnowledgeBase.queryText text kb))
  | ask {kb : KnowledgeBase σ} (text : String) :
      Reachable kb → Reachable (finalState (KnowledgeBase.ask text kb))
  | withStorage {kb : KnowledgeBase σ} (storage : σ) :
      Reachable kb → Reachable { kb with storage := storage }

/-- **The program of a knowledge base is one that batches can build.** -/
theorem Reachable.program [Storage σ] (h : kb.Reachable) : kb.program.Reachable := by
  have hadd : ∀ {kb : KnowledgeBase σ} (batch : List Clause), kb.program.Reachable →
      (finalState (KnowledgeBase.add batch kb)).program.Reachable := by
    intro kb batch hp
    rw [finalState_add]
    exact .extend batch hp
  induction h with
  | start => exact .empty
  | @load kb text _ ih =>
    rw [load_def]
    cases Clause.listOfText text with
    | ok batch => exact hadd batch ih
    | error e => exact ih
  | addFact a _ ih => exact hadd [.fact a] ih
  | addRule r _ ih => exact hadd [.rule r] ih
  | run _ ih => rwa [program_run]
  | facts name _ ih => rwa [program_facts]
  | query a _ ih => rwa [program_query]
  | queryText text _ ih => rwa [program_queryText]
  | ask text _ ih => rwa [program_ask]
  | withStorage storage _ ih => exact ih

/-! ## Refused clauses -/

theorem add_error {kb' : KnowledgeBase σ} {batch : List Clause} {e : Error}
    (hp : kb.program.Reachable) (h : add batch kb = .error e kb') : kb' = kb := by
  unfold add at h
  cases hrun : Program.extend batch kb.program with
  | ok u p =>
    rw [hrun] at h
    cases h
  | error e' p =>
    rw [hrun] at h
    obtain ⟨-, rfl⟩ := EStateM.Result.error.inj h
    rw [Program.extend_error hp.valid hrun]

theorem load_error {kb' : KnowledgeBase σ} {text : String} {e : Error}
    (hp : kb.program.Reachable) (h : load text kb = .error e kb') : kb' = kb := by
  rw [load_def] at h
  cases hread : Clause.listOfText text with
  | ok batch =>
    rw [hread] at h
    exact add_error hp h
  | error e' =>
    rw [hread] at h
    exact (EStateM.Result.error.inj h).2.symm

/-- **Refused clauses change nothing.**  A program that has come about by adding batches, accepted
or refused, is the same program after a further batch has been refused: the same clauses, and the
same catalog.  So a knowledge base is the same in all its parts after a text that could not be read
or whose clauses have been refused, and after a fact or a rule that has been refused, whatever has
been done to it and to its storage before. -/
theorem refused_clauses_change_nothing :
    (∀ {p p' : Program} {batch : List Clause} {e : IllFormed}, p.Reachable →
      Program.extend batch p = .error e p' → p' = p) ∧
    ∀ {σ : Type} [Storage σ] {kb kb' : KnowledgeBase σ} {e : Error}, kb.Reachable →
      (∀ text, load text kb = .error e kb' → kb' = kb) ∧
      (∀ a, addFact a kb = .error e kb' → kb' = kb) ∧
      ∀ r, addRule r kb = .error e kb' → kb' = kb := by
  refine ⟨fun hp h => Program.extend_error hp.valid h, fun hkb => ⟨fun text h => ?_, fun a h => ?_,
    fun r h => ?_⟩⟩
  · exact load_error hkb.program h
  · exact add_error hkb.program h
  · exact add_error hkb.program h

/-- Flights, and trips made of them. -/
def flights : List Clause :=
  [.fact ⟨"flight", [.const "oslo", .const "rome"]⟩,
    .rule ⟨⟨"trip", [.var "X", .var "Y"]⟩, [⟨"flight", [.var "X", .var "Y"]⟩]⟩]

/-- Clauses that state two known predicates and a new one before the last of them is refused. -/
def misprint : List Clause :=
  [.fact ⟨"flight", [.const "rome", .const "bari"]⟩,
    .rule ⟨⟨"trip", [.var "X", .var "Z"]⟩,
      [⟨"flight", [.var "X", .var "Y"]⟩, ⟨"ferry", [.var "Y", .var "Z"]⟩]⟩,
    .fact ⟨"ferry", [.const "bari", .const "tirana"]⟩,
    .fact ⟨"trip", [.const "oslo"]⟩]

/-- A knowledge base that has been run. -/
def timetable : KnowledgeBase Database :=
  finalState (run (finalState
    (addFact ⟨"flight", [.const "oslo", .const "rome"]⟩ { storage := ∅ })))

theorem misprint_leaves_no_trace :
    let p := finalState (Program.extend flights {})
    (∃ e, Program.extend misprint p = .error e p) ∧
      ∃ e, addFact ⟨"flight", [.const "oslo"]⟩ timetable = .error e timetable := by
  intro p
  obtain ⟨hprogram, hbase⟩ := refused_clauses_change_nothing
  have hp : p.Reachable := .extend flights .empty
  have htimetable : timetable.Reachable := .run (.addFact _ (.start ∅ {}))
  have hmisprint : succeeds (Program.extend misprint (finalState (Program.extend flights {}))) =
      false := by decide +kernel
  obtain ⟨e, hbatch⟩ := eq_error_of_not_succeeds hmisprint
  have hshort : succeeds (addFact ⟨"flight", [.const "oslo"]⟩ timetable) = false := by
    rw [addFact, succeeds_add, timetable, program_run]
    decide +kernel
  obtain ⟨e', hfact⟩ := eq_error_of_not_succeeds hshort
  refine ⟨⟨e, ?_⟩, ⟨e', ?_⟩⟩
  · rw [hprogram hp hbatch] at hbatch
    exact hbatch
  · rw [(hbase htimetable).2.1 _ hfact] at hfact
    exact hfact

end KnowledgeBase

end Datalog
