import Datalog.Proofs.KnowledgeBase
import Datalog.Proofs.LeastModel
import Datalog.Storage.Unreliable

/-!
# What a knowledge base holds after any history

Commands to a knowledge base may fail: clauses may be refused, calls to the storage may be refused,
and an evaluation may exceed its limit or be interrupted anywhere.  Nevertheless a run that succeeds
always ends with the least model of the clauses that have been accepted and of the tuples that were
there at first or have been inserted (`holds_isLeast_after_history`).

The invariant is `Accounted`: what the storage states lies between these tuples and the least model.
An interrupted run keeps it, because whatever it inserted is forced by the clauses.  A later run
then starts from atoms that may lie anywhere between the two, and the least model above them is the
same.
-/

namespace Datalog

open Storage

/-- What can be asked of a knowledge base and of its storage. -/
inductive Command where
  | load (text : String)
  | addFact (a : Atom)
  | addRule (r : Rule)
  | create (name : Predicate) (arity : Nat)
  | insert (name : Predicate) (t : Tuple)
  | run

namespace Command

/-- The clauses that a command adds if it succeeds. -/
def clauses : Command → List Clause
  | load text =>
    match Clause.listOfText text with
    | .ok batch => batch
    | .error _ => []
  | addFact a => [.fact a]
  | addRule r => [.rule r]
  | _ => []

/-- The atoms that a command inserts directly if it succeeds. -/
def atoms : Command → List GroundAtom
  | insert name t => [(name, t)]
  | _ => []

variable {σ : Type} [Storage σ]

/-- Carry out a command. -/
def perform : Command → EStateM Error (KnowledgeBase σ) Unit
  | load text => KnowledgeBase.load text
  | addFact a => KnowledgeBase.addFact a
  | addRule r => KnowledgeBase.addRule r
  | create name arity =>
    KnowledgeBase.onStorage KnowledgeBase.storageFailure (Storage.create name arity)
  | insert name t => do
    let _ ← KnowledgeBase.onStorage KnowledgeBase.storageFailure (Storage.insert name t)
  | run => do
    let _ ← KnowledgeBase.run

/-- Carry out commands one after the other, whether they succeed or not. -/
def performAll : List Command → KnowledgeBase σ → KnowledgeBase σ
  | [], kb => kb
  | c :: cs, kb => performAll cs (finalState (c.perform kb))

/-- The clauses of the commands that succeed. -/
def accepted : List Command → KnowledgeBase σ → List Clause
  | [], _ => []
  | c :: cs, kb =>
    (if succeeds (c.perform kb) then c.clauses else []) ++ accepted cs (finalState (c.perform kb))

/-- The atoms that successful commands insert directly. -/
def inserted : List Command → KnowledgeBase σ → List GroundAtom
  | [], _ => []
  | c :: cs, kb =>
    (if succeeds (c.perform kb) then c.atoms else []) ++ inserted cs (finalState (c.perform kb))

end Command

variable {σ : Type} [Storage σ]

/-- The program has the given clauses, and the storage states the given atoms and nothing beyond the
least model above them. -/
structure Accounted (cs : List Clause) (base : Interpretation) (kb : KnowledgeBase σ) : Prop where
  valid : kb.program.Valid
  clauses : kb.program.clauses = cs
  wellFormed : (contents kb.storage).WellFormed
  complete : base ⊆ (contents kb.storage).holds
  sound : (contents kb.storage).holds ⊆ leastModel cs base

namespace Accounted

variable {cs : List Clause} {base : Interpretation} {kb : KnowledgeBase σ}

/-- The same program, and a storage with other contents between the bounds. -/
theorem withStorage (h : Accounted cs base kb) {st : σ} {lastReport : Option Report}
    (hwf : (contents st).WellFormed) (hcomplete : base ⊆ (contents st).holds)
    (hsound : (contents st).holds ⊆ leastModel cs base) :
    Accounted cs base { kb with storage := st, lastReport := lastReport } :=
  ⟨h.valid, h.clauses, hwf, hcomplete, hsound⟩

/-- The same program, and a storage with the same contents. -/
theorem of_contents_eq (h : Accounted cs base kb) {st : σ}
    (hsame : contents st = contents kb.storage) :
    Accounted cs base { kb with storage := st } := by
  refine h.withStorage ?_ ?_ ?_ <;> rw [hsame]
  · exact h.wellFormed
  · exact h.complete
  · exact h.sound

theorem atoms_nil : {g : GroundAtom | g ∈ ([] : List GroundAtom)} = ∅ := by
  ext g
  simp

theorem atoms_append (gs gs' : List GroundAtom) :
    {g | g ∈ gs ++ gs'} = {g | g ∈ gs} ∪ {g | g ∈ gs'} := by
  ext g
  exact List.mem_append

/-! ## Adding clauses -/

theorem add (h : Accounted cs base kb) (batch : List Clause) :
    Accounted (cs ++ if succeeds (KnowledgeBase.add batch kb) then batch else []) base
      (finalState (KnowledgeBase.add batch kb)) := by
  unfold KnowledgeBase.add
  cases hrun : Program.extend batch kb.program with
  | ok u p =>
    obtain ⟨hclauses, hvalid⟩ := Program.extend_ok h.valid hrun
    rw [h.clauses] at hclauses
    refine ⟨hvalid, hclauses, h.wellFormed, h.complete, h.sound.trans ?_⟩
    exact leastModel_mono (fun c hc => List.mem_append_left _ hc) subset_rfl
  | error e p =>
    have hsame := Program.extend_error h.valid hrun
    show Accounted (cs ++ []) base { kb with program := p }
    rw [hsame, List.append_nil]
    exact h

theorem load (h : Accounted cs base kb) (text : String) :
    Accounted
      (cs ++ if succeeds (KnowledgeBase.load text kb) then (Command.load text).clauses else []) base
      (finalState (KnowledgeBase.load text kb)) := by
  unfold KnowledgeBase.load
  simp only [Command.clauses]
  cases Clause.listOfText text with
  | ok batch => exact h.add batch
  | error e =>
    show Accounted (cs ++ []) base kb
    rw [List.append_nil]
    exact h

/-! ## Calls to the storage -/

theorem create (h : Accounted cs base kb) (name : Predicate) (arity : Nat) :
    Accounted cs base (finalState (KnowledgeBase.onStorage KnowledgeBase.storageFailure
      (Storage.create name arity) kb)) := by
  rw [KnowledgeBase.finalState_onStorage]
  rcases contents_create name arity kb.storage with hsame | hcreate
  · exact h.of_contents_eq hsame
  · have hholds := (Database.created_of_create hcreate).holds
    refine h.withStorage (h.wellFormed.create hcreate) ?_ ?_ <;> rw [hholds]
    · exact h.complete
    · exact h.sound

theorem insert (h : Accounted cs base kb) (name : Predicate) (t : Tuple) :
    Accounted cs
      (base ∪ {g | g ∈ if succeeds (KnowledgeBase.onStorage KnowledgeBase.storageFailure
        (Storage.insert name t) kb) then [(name, t)] else []})
      (finalState (KnowledgeBase.onStorage KnowledgeBase.storageFailure
        (Storage.insert name t) kb)) := by
  rw [KnowledgeBase.finalState_onStorage, KnowledgeBase.succeeds_onStorage]
  rcases contents_insert name t kb.storage with ⟨hok, isNew, hins⟩ | ⟨hfail, hsame⟩
  · have hholds := (Database.inserted_of_insert hins).holds
    have hnew : {g : GroundAtom | g ∈ [(name, t)]} = {(name, t)} := by
      ext g
      exact List.mem_singleton
    rw [hok, if_pos rfl, hnew]
    refine ⟨h.valid, h.clauses, h.wellFormed.insert hins, ?_, ?_⟩
    · rw [hholds]
      exact Set.union_subset_union_left _ h.complete
    · rw [hholds]
      refine Set.union_subset (h.sound.trans ?_) ?_
      · exact leastModel_mono (fun c hc => hc) Set.subset_union_left
      · exact Set.subset_union_right.trans (isLeast_leastModel _ _).1.1
  · rw [hfail, if_neg Bool.false_ne_true, atoms_nil, Set.union_empty]
    exact h.of_contents_eq hsame

/-! ## Runs -/

/-- The least model has all facts, and the rules hold in it. -/
theorem factAtoms_subset (h : Accounted cs base kb) :
    kb.program.factAtoms ⊆ leastModel cs base ∧
      ∀ r ∈ kb.program.rules, r.HoldsIn (leastModel cs base) := by
  have hmodel := (isLeast_leastModel cs base).1
  rw [← h.clauses, h.valid.mem_models_iff, h.clauses] at hmodel
  exact ⟨Set.subset_union_right.trans hmodel.1, hmodel.2⟩

/-- Inserting the facts keeps the bounds, however it ends. -/
theorem materialize (h : Accounted cs base kb) :
    Accounted cs base (finalState (KnowledgeBase.onStorage KnowledgeBase.storageFailure
      (Datalog.materialize kb.program (Stratification.ofProgram kb.program)) kb)) := by
  rw [KnowledgeBase.finalState_onStorage]
  have hprepared := prepared_materialize kb.program (Stratification.ofProgram kb.program)
    kb.storage
  refine h.withStorage (hprepared.wellFormed h.wellFormed) ?_ ?_
  · exact h.complete.trans hprepared.subset
  · exact hprepared.bounded.trans (Set.union_subset h.sound h.factAtoms_subset.1)

/-- Evaluating the rules keeps the bounds, however it ends. -/
theorem evaluate (h : Accounted cs base kb) {st : σ} {n : Nat}
    (hmat : Datalog.materialize kb.program (Stratification.ofProgram kb.program) kb.storage =
      .ok n st) (h' : Accounted cs base { kb with storage := st }) (settings : Settings) :
    Accounted cs base (finalState (KnowledgeBase.onStorage Error.evaluation
      (Datalog.evaluate settings (Stratification.ofProgram kb.program))
      { kb with storage := st })) := by
  have hdb := materialized_of_materialize (follows_materialize _ _ _ _ _ hmat)
  obtain ⟨-, hrules⟩ := h.factAtoms_subset
  have hgrown := grown_evaluateFrom settings 0 {} (hdb.ready h.valid h.wellFormed) h'.sound
    (fun s hs r hr => hrules r ((Stratification.mem_rules_iff hs).mp hr).1)
  rw [KnowledgeBase.finalState_onStorage]
  refine h'.withStorage (hgrown.wellFormed h'.wellFormed) ?_ ?_
  · exact h'.complete.trans hgrown.holds_subset
  · exact hgrown.holds_subset_union.trans (Set.union_subset h'.sound subset_rfl)

theorem run (h : Accounted cs base kb) : Accounted cs base (finalState (KnowledgeBase.run kb)) := by
  unfold KnowledgeBase.run
  rw [get_bind]
  cases kb.settings.validate with
  | error e => exact h
  | ok u =>
    refine finalState_bind (P := Accounted cs base) h.materialize fun n kb₁ hrun h₁ => ?_
    obtain ⟨st, hmat, rfl⟩ := KnowledgeBase.onStorage_eq_ok _ _ _ hrun
    refine finalState_bind (P := Accounted cs base) (h.evaluate hmat h₁ _)
      fun report kb₂ _ h₂ => ?_
    exact h₂.withStorage h₂.wellFormed h₂.complete h₂.sound

/-- A run that succeeds ends with the least model. -/
theorem isLeast_of_run (h : Accounted cs base kb) {report : Report} {kb' : KnowledgeBase σ}
    (hrun : KnowledgeBase.run kb = .ok report kb') :
    IsLeast (models cs base) (contents kb'.storage).holds := by
  unfold KnowledgeBase.run at hrun
  rw [get_bind] at hrun
  cases hvalidate : kb.settings.validate with
  | error e =>
    rw [hvalidate] at hrun
    cases hrun
  | ok u =>
    rw [hvalidate] at hrun
    obtain ⟨n, kb₁, hfirst, hrun⟩ := bind_eq_ok.mp hrun
    obtain ⟨st₁, hmat, rfl⟩ := KnowledgeBase.onStorage_eq_ok _ _ _ hfirst
    obtain ⟨report', kb₂, hsecond, hrun⟩ := bind_eq_ok.mp hrun
    obtain ⟨st₂, heval, rfl⟩ := KnowledgeBase.onStorage_eq_ok _ _ _ hsecond
    obtain ⟨-, rfl⟩ := EStateM.Result.ok.inj hrun
    have hleast := isLeast_of_evaluate h.valid h.wellFormed
      (follows_materialize _ _ _ _ _ hmat) (follows_evaluateFrom _ _ _ _ _ _ _ heval)
    rw [h.clauses, models_eq_of_subset_leastModel h.complete h.sound] at hleast
    exact hleast

/-- A command keeps the bounds, whether it succeeds or not. -/
theorem perform (h : Accounted cs base kb) (c : Command) :
    Accounted (cs ++ if succeeds (c.perform kb) then c.clauses else [])
      (base ∪ {g | g ∈ if succeeds (c.perform kb) then c.atoms else []})
      (finalState (c.perform kb)) := by
  cases c with
  | load text =>
    simp only [Command.atoms, ite_self, atoms_nil, Set.union_empty]
    exact h.load text
  | addFact a =>
    simp only [Command.atoms, ite_self, atoms_nil, Set.union_empty]
    exact h.add [.fact a]
  | addRule r =>
    simp only [Command.atoms, ite_self, atoms_nil, Set.union_empty]
    exact h.add [.rule r]
  | create name arity =>
    simp only [Command.atoms, Command.clauses, ite_self, atoms_nil, Set.union_empty,
      List.append_nil]
    exact h.create name arity
  | insert name t =>
    simp only [Command.clauses, ite_self, List.append_nil]
    rw [Command.perform, succeeds_bind_pure, finalState_bind_pure]
    exact h.insert name t
  | run =>
    simp only [Command.atoms, Command.clauses, ite_self, atoms_nil, Set.union_empty,
      List.append_nil]
    rw [Command.perform, finalState_bind_pure]
    exact h.run

theorem performAll (h : Accounted cs base kb) (commands : List Command) :
    Accounted (cs ++ Command.accepted commands kb)
      (base ∪ {g | g ∈ Command.inserted commands kb}) (Command.performAll commands kb) := by
  induction commands generalizing cs base kb with
  | nil =>
    rw [Command.accepted, Command.inserted, Command.performAll, List.append_nil, atoms_nil,
      Set.union_empty]
    exact h
  | cons c commands ih =>
    have hrest := ih (h.perform c)
    rw [List.append_assoc, Set.union_assoc, ← atoms_append] at hrest
    exact hrest

/-- Before the first command. -/
theorem begin {st : σ} (hst : (contents st).Reachable) (settings : Settings) :
    Accounted [] (contents st).holds { storage := st, settings := settings } where
  valid := Program.valid_empty
  clauses := rfl
  wellFormed := hst.wellFormed
  complete := subset_rfl
  sound := (isLeast_leastModel _ _).1.1

theorem isLeast_after_history {st : σ} (hst : (contents st).Reachable) {settings : Settings}
    {commands : List Command} {report : Report} {kb : KnowledgeBase σ}
    (hrun : KnowledgeBase.run
      (Command.performAll commands { storage := st, settings := settings }) = .ok report kb) :
    IsLeast
      (models (Command.accepted commands { storage := st, settings := settings })
        ((contents st).holds ∪
          {g | g ∈ Command.inserted commands { storage := st, settings := settings }}))
      (contents kb.storage).holds :=
  ((begin hst settings).performAll commands).isLeast_of_run hrun

end Accounted

section Histories

variable {τ : Type} [Storage τ]

/-- **After any history, a run that succeeds ends with the least model** of the clauses that have
been accepted and the atoms that the storage stated at first or that have been inserted directly.
Any other history that ends with a run that succeeds, on whatever storage, leads to the same atoms
if the same clauses have been accepted and the same atoms were there or have been inserted. -/
theorem holds_isLeast_after_history {st : σ} (hst : (contents st).Reachable) {settings : Settings}
    {commands : List Command} {report : Report} {kb : KnowledgeBase σ}
    (hrun : KnowledgeBase.run
      (Command.performAll commands { storage := st, settings := settings }) = .ok report kb) :
    let start : KnowledgeBase σ := { storage := st, settings := settings }
    let given := (contents st).holds ∪ {g | g ∈ Command.inserted commands start}
    IsLeast (models (Command.accepted commands start) given) (contents kb.storage).holds ∧
      ∀ {st' : τ} {settings' : Settings} {commands' : List Command} {report' : Report}
        {kb' : KnowledgeBase τ},
        let start' : KnowledgeBase τ := { storage := st', settings := settings' }
        (contents st').Reachable →
        KnowledgeBase.run (Command.performAll commands' start') = .ok report' kb' →
        (∀ c, c ∈ Command.accepted commands' start' ↔ c ∈ Command.accepted commands start) →
        (contents st').holds ∪ {g | g ∈ Command.inserted commands' start'} = given →
        (contents kb'.storage).holds = (contents kb.storage).holds := by
  intro start given
  have hleast := Accounted.isLeast_after_history hst hrun
  refine ⟨hleast, ?_⟩
  intro st' settings' commands' report' kb' start' hst' hrun' hsame hgiven
  have hleast' := Accounted.isLeast_after_history hst' hrun'
  have hmodels : models (Command.accepted commands' start') given =
      models (Command.accepted commands start) given := by
    ext I
    constructor
    · exact fun hI => ⟨hI.1, fun c hc => hI.2 c ((hsame c).mpr hc)⟩
    · exact fun hI => ⟨hI.1, fun c hc => hI.2 c ((hsame c).mp hc)⟩
  rw [hgiven, hmodels] at hleast'
  exact hleast'.unique hleast

end Histories

/-- An empty database behind a connection that fails at the second insertion. -/
def flaky : Unreliable where
  database := ∅
  plan history operation :=
    if operation = .insert ∧ history.count .insert = 1 then some "connection lost" else none

/-- Clauses of which one is refused, with a run that loses its connection in between. -/
def session : List Command :=
  [.addFact ⟨"edge", [.const "a", .const "b"]⟩,
    .addRule ⟨⟨"path", [.var "X", .var "Y"]⟩, [⟨"edge", [.var "X", .var "Y"]⟩]⟩,
    .addFact ⟨"edge", [.var "X"]⟩,
    .run,
    .addRule ⟨⟨"path", [.var "X", .var "Z"]⟩,
      [⟨"path", [.var "X", .var "Y"]⟩, ⟨"path", [.var "Y", .var "Z"]⟩]⟩,
    .insert "edge" ["b", "c"]]

theorem session_ends_with_least_model :
    let start : KnowledgeBase Unreliable := { storage := flaky }
    succeeds (Command.run.perform (Command.performAll (session.take 3) start)) = false ∧
      ∃ kb : KnowledgeBase Unreliable, ("path", ["a", "c"]) ∈ kb.storage.database.holds ∧
        IsLeast
          (models (Command.accepted session start)
            ((∅ : Database).holds ∪ {g | g ∈ Command.inserted session start}))
          kb.storage.database.holds := by
  intro start
  have hends : succeeds (KnowledgeBase.run
      (Command.performAll session ({ storage := flaky } : KnowledgeBase Unreliable))) = true := by
    simp only [session, Command.performAll, Command.perform, KnowledgeBase.run,
      Stratification.ofProgram_eq_counted]
    decide +kernel
  obtain ⟨report, hrun⟩ := eq_ok_of_succeeds hends
  have hempty : (Storage.contents flaky).Reachable := Database.Reachable.empty
  refine ⟨?_, _, ?_, (holds_isLeast_after_history (τ := Database) hempty hrun).1⟩
  · simp only [start, session, List.take, Command.performAll, Command.perform, KnowledgeBase.run,
      Stratification.ofProgram_eq_counted]
    decide +kernel
  · rw [Database.mem_holds]
    simp only [session, Command.performAll, Command.perform, KnowledgeBase.run,
      Stratification.ofProgram_eq_counted]
    decide +kernel

end Datalog
