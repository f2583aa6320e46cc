import Datalog.Proofs.LeastModel
import Datalog.Proofs.Renaming.Join

/-!
# Evaluation commutes with renaming

A renamed program is evaluated on a renamed database.  Every step of the evaluation has the renamed
outcome, so the evaluation succeeds or fails as before, adds the renamed tuples in the same order,
and reports the same rounds (`evaluation_commutes_with_renaming`).  In particular the names of the
variables are local to a clause: other names, shared by several clauses or not, change nothing.

* `Harvest.RenamedBy`, `Progress.RenamedBy`, `Report.RenamedBy`: what a round has collected, how far
  a stratum has come, and what is reported, each with the renamed tuples and the same numbers.
* `renames_evaluateRound`, `renames_evaluateStratum`, `renames_evaluateFrom`, `renames_materialize`:
  the parts of a run on corresponding databases.

## Why the texts of the rules are not compared

A report may list the texts of the rules that have been evaluated, each once.  The text of a renamed
rule is another one, and two rules with the same text may be told apart by their new texts.  So
these lists need not even have the same length, and they are left out.
-/

namespace Datalog

variable {σ : Constant ↪ Constant}

/-! ## What a round collects, adds and reports -/

/-- The renamed tuples have been collected, and the same number of tuples has been fetched. -/
structure Harvest.RenamedBy (σ : Constant ↪ Constant) (h h' : Harvest) : Prop where
  candidates : h'.candidates = h.candidates.rename id (List.map (List.map σ))
  fetched : h'.fetched = h.fetched

theorem Harvest.RenamedBy.add {h h' : Harvest} (hh : h.RenamedBy σ h') {r r' : Rule}
    (hr : r.RenamedBy σ r') (derived : List Tuple) (n : Nat) :
    (h.add r derived n).RenamedBy σ (h'.add r' (derived.map (List.map σ)) n) := by
  obtain ⟨ρ, rfl⟩ := hr
  refine ⟨?_, congrArg (· + n) hh.fetched⟩
  unfold Harvest.add
  simp only [List.map_eq_nil_iff, hh.candidates]
  by_cases hnone : derived = []
  · rw [if_pos hnone, if_pos hnone]
  · rw [if_neg hnone, if_neg hnone]
    refine Table.upsert_rename Function.injective_id (fun old => ?_) h.candidates r.head.predicate
    have hold : (old.map (List.map (List.map σ))).getD [] = (old.getD []).map (List.map σ) := by
      cases old <;> rfl
    rw [hold, ← List.map_append, eraseDups_map (map_constants_injective σ)]

theorem noteAdded_rename (added : Database) (name : Predicate) (t : Tuple) :
    noteAdded (added.rename σ) name (t.map σ) =
      (noteAdded added name t).map (Database.rename σ) := by
  unfold noteAdded
  rw [List.length_map, Database.create_rename]
  cases added.create name t.length with
  | error e => rfl
  | ok mid =>
    show ((mid.rename σ).insert name (t.map σ) >>= fun x => Pure.pure x.2) =
      Except.map _ (mid.insert name t >>= fun x => Pure.pure x.2)
    rw [Database.insert_rename]
    cases mid.insert name t <;> rfl

theorem renames_commitTuples (name : Predicate) (ts : List Tuple) (added : Database) :
    Renames σ (IsImage (Database.rename σ)) (commitTuples (σ := Database) name ts added)
      (commitTuples name (ts.map (List.map σ)) (added.rename σ)) := by
  induction ts generalizing added with
  | nil => exact .pure rfl
  | cons t ts ih =>
    refine (renames_insert name t).bind fun isNew _ hnew => ?_
    subst hnew
    cases isNew with
    | false => exact ih added
    | true =>
      simp only [if_true]
      rw [noteAdded_rename]
      cases noteAdded added name t with
      | error e => exact .throw e
      | ok added' => exact ih added'

theorem renames_commit (entries : List (Predicate × List Tuple)) (added : Database) :
    Renames σ (IsImage (Database.rename σ)) (commit (σ := Database) entries added)
      (commit (entries.map (Prod.map id (List.map (List.map σ)))) (added.rename σ)) := by
  induction entries generalizing added with
  | nil => exact .pure rfl
  | cons e entries ih =>
    refine (renames_commitTuples e.1 e.2 added).bind fun added₁ _ hadded => ?_
    subst hadded
    exact ih added₁

/-- The same strata with the same numbers, and the derivations of the renamed tuples. -/
structure Report.RenamedBy (σ : Constant ↪ Constant) (report report' : Report) : Prop where
  strata : report'.strata = report.strata
  derivations : report'.derivations = report.derivations.rename (Prod.map id (List.map σ)) id

/-- The same numbers, and the renamed tuples. -/
structure Progress.RenamedBy (σ : Constant ↪ Constant) (p p' : Progress) : Prop where
  report : p.report.RenamedBy σ p'.report
  stratum : p'.stratum = p.stratum
  added : p'.added = p.added.rename σ

theorem Report.RenamedBy.recordDerivations {report report' : Report}
    (h : report.RenamedBy σ report') (moment : Derivation) (added : Database) :
    (report.recordDerivations moment added).RenamedBy σ
      (report'.recordDerivations moment (added.rename σ)) := by
  have hkey : Function.Injective (Prod.map id (List.map σ) : Predicate × Tuple → _) :=
    Function.injective_id.prodMap (map_constants_injective σ)
  refine ⟨h.strata, ?_⟩
  unfold Report.recordDerivations
  simp only
  rw [h.derivations, ← Table.foldl_insertNew_rename hkey]
  refine congrArg (List.foldl _ _) ?_
  unfold Database.rename Table.rename
  rw [List.flatMap_map, List.map_flatMap]
  refine List.flatMap_congr fun e _ => ?_
  show List.map _ (e.2.tuples.map (List.map σ)) = List.map _ (List.map _ _)
  rw [List.map_map, List.map_map]
  rfl

theorem Progress.RenamedBy.after {p p' : Progress} (hp : p.RenamedBy σ p') {h h' : Harvest}
    (hh : h.RenamedBy σ h') (settings : Settings) (place : Nat) (added : Database) :
    (p.after settings place h added).RenamedBy σ
      (p'.after settings place h' (added.rename σ)) := by
  have htimed : Report.RenamedBy σ
      (if settings.collectTimings then
        { p.report with timedRules := h.evaluated.foldl arrive p.report.timedRules } else p.report)
      (if settings.collectTimings then
        { p'.report with timedRules := h'.evaluated.foldl arrive p'.report.timedRules }
        else p'.report) := by
    split
    · exact ⟨hp.report.strata, hp.report.derivations⟩
    · exact hp.report
  refine ⟨?_, ?_, rfl⟩
  · unfold Progress.after
    simp only
    rw [hp.stratum]
    split
    · exact htimed.recordDerivations ⟨place, p.stratum.rounds + 1⟩ added
    · exact htimed
  · unfold Progress.after
    simp only
    rw [hp.stratum, hh.fetched, Database.totalTuples_rename]

theorem Rule.headConstants_rename (ρ : Variable → Variable) (r : Rule) :
    (r.rename ρ σ).headConstants = r.headConstants.map σ := by
  unfold headConstants rename Atom.rename
  rw [List.filterMap_map, List.map_filterMap]
  refine List.filterMap_congr fun t _ => ?_
  cases t <;> rfl

/-! ## Rounds -/

section Rounds

variable {s s' : Stratum} (hs : s.RenamedBy σ s')

include hs

theorem isLocal_rename (ρ : Variable ↪ Variable) (a : Atom) :
    s'.isLocal (a.rename ρ σ) = s.isLocal a := by
  unfold Stratum.isLocal
  rw [hs.predicates, Atom.predicate_rename]

theorem localPositions_rename (ρ : Variable ↪ Variable) (r : Rule) :
    s'.localPositions (r.rename ρ σ) = s.localPositions r := by
  unfold Stratum.localPositions Rule.rename
  simp only [List.length_map, List.getElem?_map]
  refine List.filter_congr fun i _ => ?_
  cases r.body[i]? with
  | none => rfl
  | some a => exact isLocal_rename hs ρ a

theorem isRecursiveRule_rename (ρ : Variable ↪ Variable) (r : Rule) :
    s'.isRecursiveRule (r.rename ρ σ) = s.isRecursiveRule r := by
  unfold Stratum.isRecursiveRule Rule.rename
  rw [List.any_map]
  exact congrArg r.body.any (funext fun a => isLocal_rename hs ρ a)

theorem renames_deriveInRound (settings : Settings) (round : Nat) (added : Database)
    (ρ : Variable ↪ Variable) (r : Rule) :
    Renames σ (IsImage (Option.map (Prod.map (List.map (List.map σ)) id)))
      (deriveInRound (σ := Database) settings s round added r)
      (deriveInRound settings s' round (added.rename σ) (r.rename ρ σ)) := by
  have hwhole : Renames σ (IsImage (Option.map (Prod.map (List.map (List.map σ)) id)))
      (some <$> r.derive (σ := Database) r.overStored)
      (some <$> (r.rename ρ σ).derive (r.rename ρ σ).overStored) := by
    rw [overStored_rename]
    exact (renames_derive ρ r r.overStored).map fun _ _ h => congrArg some h
  unfold deriveInRound
  by_cases hround : round = 1
  · rw [if_pos hround, if_pos hround]
    exact hwhole
  · rw [if_neg hround, if_neg hround]
    cases settings.strategy with
    | naive =>
      simp only [isRecursiveRule_rename hs]
      split
      · exact hwhole
      · exact .pure rfl
    | semiNaive =>
      simp only [localPositions_rename hs]
      exact (renames_deriveAgain ρ r added (s.localPositions r)).map fun _ _ h => congrArg some h

theorem renames_harvest (settings : Settings) (round : Nat) (added : Database)
    {rules rules' : List Rule} (hrules : List.Forall₂ (Rule.RenamedBy σ) rules rules')
    {h h' : Harvest} (hh : h.RenamedBy σ h') :
    Renames σ (Harvest.RenamedBy σ) (harvest (σ := Database) settings s round added rules h)
      (harvest settings s' round (added.rename σ) rules' h') := by
  induction hrules generalizing h h' with
  | nil => exact .pure hh
  | cons hr _ ih =>
    obtain ⟨ρ, rfl⟩ := hr
    refine (renames_deriveInRound hs settings round added ρ _).bind fun x _ hx => ?_
    subst hx
    cases x with
    | none => exact ih hh
    | some x => exact ih (hh.add ⟨ρ, rfl⟩ x.1 x.2)

/-- **A round** of a renamed stratum. -/
theorem renames_evaluateRound (settings : Settings) (place : Nat) {p p' : Progress}
    (hp : p.RenamedBy σ p') :
    Renames σ (Progress.RenamedBy σ) (evaluateRound (σ := Database) settings place s p)
      (evaluateRound settings place s' p') := by
  rw [evaluateRound_def, evaluateRound_def, hp.stratum, hp.added]
  have hempty : Harvest.RenamedBy σ {} {} := ⟨rfl, rfl⟩
  refine (renames_harvest hs settings _ p.added hs.rules hempty).bind fun h h' hh => ?_
  rw [hh.candidates]
  refine (renames_commit h.candidates.entries ∅).bind fun added _ hadded => ?_
  subst hadded
  exact .pure (hp.after hh settings place added)

theorem renames_evaluateRounds (settings : Settings) (place limit n : Nat) {p p' : Progress}
    (hp : p.RenamedBy σ p') :
    Renames σ (Progress.RenamedBy σ)
      (evaluateRounds (σ := Database) settings place limit s n p)
      (evaluateRounds settings place limit s' n p') := by
  induction n generalizing p p' with
  | zero =>
    rw [evaluateRounds, evaluateRounds]
    refine ((renames_evaluateRound hs settings place hp).adaptExcept _).bind fun q q' hq => ?_
    rw [hq.added, Database.totalTuples_rename, hs.recursive]
    split
    · exact .pure hq
    · exact .throw _
  | succ n ih =>
    rw [evaluateRounds, evaluateRounds]
    refine ((renames_evaluateRound hs settings place hp).adaptExcept _).bind fun q q' hq => ?_
    rw [hq.added, Database.totalTuples_rename, hs.recursive]
    split
    · exact .pure hq
    · exact ih hq

/-! ## Strata -/

theorem definedRelations_rename : s'.definedRelations = s.definedRelations := by
  unfold Stratum.definedRelations
  refine congrArg List.eraseDups ?_
  have hrules := hs.rules
  generalize s.rules = rs, s'.rules = rs' at hrules
  induction hrules with
  | nil => rfl
  | cons hr _ ih =>
    obtain ⟨ρ, rfl⟩ := hr
    rw [List.map_cons, List.map_cons, ih]
    exact congrArg (fun k => (_, k) :: _) (Atom.arity_rename ρ σ _)

theorem headConstants_renamed :
    s'.rules.flatMap Rule.headConstants = (s.rules.flatMap Rule.headConstants).map σ := by
  have hrules := hs.rules
  generalize s.rules = rs, s'.rules = rs' at hrules
  induction hrules with
  | nil => rfl
  | cons hr _ ih =>
    obtain ⟨ρ, rfl⟩ := hr
    rw [List.flatMap_cons, List.flatMap_cons, List.map_append, ih, Rule.headConstants_rename]

/-- There are as many tuples to add as before. -/
theorem capacity_rename (db : Database) : s'.capacity (db.rename σ) = s.capacity db := by
  have hdomain : (s'.domain (db.rename σ)).length = (s.domain db).length := by
    unfold Stratum.domain
    rw [Database.constants_rename, headConstants_renamed hs, ← List.map_append,
      eraseDups_map σ.injective, List.length_map]
  unfold Stratum.capacity
  rw [hdomain, definedRelations_rename hs]

/-- **A renamed stratum.** -/
theorem renames_evaluateStratum (settings : Settings) (place : Nat) {report report' : Report}
    (hreport : report.RenamedBy σ report') :
    Renames σ (Report.RenamedBy σ) (s.evaluate (σ := Database) settings place report)
      (s'.evaluate settings place report') := by
  intro db
  have hbegun : s'.begun = s.begun := by
    unfold Stratum.begun
    rw [hs.predicates, hs.recursive]
  have hallowance : s'.allowance settings (Storage.contents (db.rename σ)) =
      s.allowance settings (Storage.contents db) := by
    unfold Stratum.allowance
    exact congrArg settings.maxRounds.getD (capacity_rename hs db)
  have hempty : s'.rules.isEmpty = s.rules.isEmpty := by
    rw [Bool.eq_iff_iff, List.isEmpty_iff_length_eq_zero, List.isEmpty_iff_length_eq_zero,
      hs.rules.length_eq]
  have hfirst : Progress.RenamedBy σ ⟨report, s.begun, ∅⟩ ⟨report', s.begun, ∅⟩ :=
    ⟨hreport, rfl, rfl⟩
  rw [Stratum.evaluate_def, Stratum.evaluate_def, hempty, hbegun, hallowance, hreport.strata]
  split
  · exact .ok db ⟨rfl, hreport.derivations⟩
  · refine ((renames_evaluateRounds hs settings place _ _ hfirst).bind fun p p' hp => .pure ?_) db
    refine ⟨?_, hp.report.derivations⟩
    unfold Progress.closed
    rw [hp.report.strata, hp.stratum]

end Rounds

/-- **Renamed strata**, one after the other. -/
theorem renames_evaluateFrom (settings : Settings) (place : Nat) {strata strata' : List Stratum}
    (hstrata : List.Forall₂ (Stratum.RenamedBy σ) strata strata') {report report' : Report}
    (hreport : report.RenamedBy σ report') :
    Renames σ (Report.RenamedBy σ) (evaluateFrom (σ := Database) settings place strata report)
      (evaluateFrom settings place strata' report') := by
  induction hstrata generalizing place report report' with
  | nil => exact .pure hreport
  | cons hs _ ih =>
    exact (renames_evaluateStratum hs settings place hreport).bind fun _ _ h => ih (place + 1) h

/-! ## Preparation -/

section Preparation

variable {p q : Program} (h : p.RenamedBy σ q)

include h

theorem renames_createAll (names : List Predicate) :
    Renames σ Eq (createAll (σ := Database) p names) (createAll q names) := by
  induction names with
  | nil => exact .pure rfl
  | cons name names ih =>
    rw [createAll, createAll, h.arity?_eq]
    exact (renames_create name _).bind fun _ _ _ => ih

omit h in
theorem renames_insertFacts {as as' : List Atom}
    (has : List.Forall₂ (fun a a' => ∃ ρ, a' = Atom.rename ρ σ a) as as') :
    Renames σ Eq (insertFacts (σ := Database) as) (insertFacts as') := by
  induction has with
  | nil => exact .pure rfl
  | @cons a _ as as' ha _ ih =>
    obtain ⟨ρ, rfl⟩ := ha
    rw [insertFacts, insertFacts, Atom.toTuple?_rename]
    cases a.toTuple? with
    | none => exact ih
    | some t =>
      refine (renames_insert a.predicate t).bind fun isNew _ hnew => ?_
      subst hnew
      exact ih.bind fun more _ hmore => .pure (congrArg (fun k => if isNew then k + 1 else k) hmore)

/-- **A renamed program is prepared** by the renamed tuples. -/
theorem renames_materialize :
    Renames σ Eq
      (materialize (σ := Database) p (Stratification.ofProgram p))
      (materialize q (Stratification.ofProgram q)) := by
  have hnames : (Stratification.ofProgram q).strata.flatMap Stratum.predicates =
      (Stratification.ofProgram p).strata.flatMap Stratum.predicates := by
    have hstrata := Stratification.renamed h
    generalize (Stratification.ofProgram p).strata = strata,
      (Stratification.ofProgram q).strata = strata' at hstrata
    induction hstrata with
    | nil => rfl
    | cons hs _ ih => rw [List.flatMap_cons, List.flatMap_cons, hs.predicates, ih]
  unfold materialize
  rw [hnames]
  exact (renames_createAll h _).bind fun _ _ _ => renames_insertFacts h.facts

theorem renames_evaluate (settings : Settings) :
    Renames σ (Report.RenamedBy σ)
      (evaluate (σ := Database) settings (Stratification.ofProgram p))
      (evaluate settings (Stratification.ofProgram q)) :=
  renames_evaluateFrom settings 0 (Stratification.renamed h) ⟨rfl, rfl⟩

end Preparation

/-! ## Whole runs -/

/-- The report without the texts of the rules. -/
def Report.untimed (report : Report) : Report := { report with timedRules := [] }

theorem Report.RenamedBy.untimed_eq {report report' : Report}
    (h : report.RenamedBy (Function.Embedding.refl Constant) report') :
    report'.untimed = report.untimed := by
  have hkeys : (Prod.map id (List.map (Function.Embedding.refl Constant)) :
      Predicate × Tuple → Predicate × Tuple) = id := by
    funext key
    exact Prod.ext rfl (List.map_id key.2)
  have hsame := h.derivations
  rw [hkeys, Table.rename_id] at hsame
  unfold untimed
  rw [h.strata, hsame]

/-- What corresponds without any new constant is the same. -/
theorem Renames.eq_of_refl {ε α β γ : Type} {Q : α → β → Prop} {x : EStateM ε Database α}
    {y : EStateM ε Database β} (h : Renames (Function.Embedding.refl Constant) Q x y) {f : α → γ}
    {g : β → γ} (hfg : ∀ a b, Q a b → g b = f a) : g <$> y = f <$> x := by
  have hmap : Renames (Function.Embedding.refl Constant) Eq (f <$> x) (g <$> y) :=
    h.map fun a b hab => (hfg a b hab).symm
  funext db
  have hdb := hmap db
  rw [Database.rename_refl] at hdb
  generalize (f <$> x) db = r, (g <$> y) db = r' at hdb
  cases hdb with
  | ok db' hab => rw [Database.rename_refl, hab]
  | error e db' => rw [Database.rename_refl]

/-- **Evaluation commutes with renaming.**  The constants of a program and of a database are renamed
injectively, and the variables of each clause as well, in each clause in its own way.  Then the
program is accepted with the same predicates and arities, and its strata are the renamed ones in the
same order.  Preparing the renamed database and evaluating the renamed program on it, with the same
settings, ends as it does without the renaming, in success or with the same error.  It leaves the
renamed database, with the relations and the tuples in the same order, and it reports the same
rounds, the same numbers of new tuples and of tuples fetched, and the derivations of the renamed
tuples.  If only variables are renamed, then the very same database is left. -/
theorem evaluation_commutes_with_renaming {p : Program} (hp : p.Reachable) :
    (∀ (σ : Constant ↪ Constant) (cs : List Clause),
      List.Forall₂ (Clause.RenamedBy σ) p.clauses cs →
      ∃ q, Program.ofClauses cs = .ok q ∧ q.catalog = p.catalog ∧
        List.Forall₂ (Stratum.RenamedBy σ) (Stratification.ofProgram p).strata
          (Stratification.ofProgram q).strata ∧
        (∀ db : Database, db.Reachable → (db.rename σ).Reachable) ∧
        Renames σ Eq (materialize p (Stratification.ofProgram p))
          (materialize q (Stratification.ofProgram q)) ∧
        ∀ settings, Renames σ (Report.RenamedBy σ)
          (evaluate settings (Stratification.ofProgram p))
          (evaluate settings (Stratification.ofProgram q))) ∧
    ∀ cs : List Clause,
      List.Forall₂ (Clause.RenamedBy (Function.Embedding.refl Constant)) p.clauses cs →
      ∃ q, Program.ofClauses cs = .ok q ∧
        materialize (σ := Database) q (Stratification.ofProgram q) =
          materialize p (Stratification.ofProgram p) ∧
        ∀ settings, Report.untimed <$> evaluate (σ := Database) settings
            (Stratification.ofProgram q) =
          Report.untimed <$> evaluate settings (Stratification.ofProgram p) := by
  constructor
  · intro σ cs hcs
    obtain ⟨q, hq, h⟩ := Program.exists_renamed hp hcs
    exact ⟨q, hq, h.catalog, Stratification.renamed h, fun _ hdb => hdb.rename σ,
      renames_materialize h, renames_evaluate h⟩
  · intro cs hcs
    obtain ⟨q, hq, h⟩ := Program.exists_renamed hp hcs
    refine ⟨q, hq, ?_, fun settings => ?_⟩
    · have hsame := (renames_materialize h).eq_of_refl (f := id) (g := id) fun _ _ hab => hab.symm
      rw [id_map, id_map] at hsame
      exact hsame
    · exact (renames_evaluate h settings).eq_of_refl fun _ _ hab => hab.untimed_eq

/-- `paths` with the constant `a` spelled `X`, like a variable, and with other variables, of which
one is spelled `a`. -/
def pathsRenamed : List Clause :=
  [.fact ⟨"edge", [.const "X", .const "b"]⟩,
    .rule ⟨⟨"path", [.var "a", .var "X"]⟩, [⟨"edge", [.var "a", .var "X"]⟩]⟩,
    .rule ⟨⟨"path", [.var "X", .var "Y"]⟩,
      [⟨"path", [.var "X", .var "Z"]⟩, ⟨"path", [.var "Z", .var "Y"]⟩]⟩]

theorem renamedBy_pathsRenamed :
    List.Forall₂ (Clause.RenamedBy (Equiv.swap "a" "X").toEmbedding) paths.clauses
      pathsRenamed := by
  have hrenamed : ∀ (ρ : Equiv.Perm Variable) {c c' : Clause},
      c' = c.rename ρ (Equiv.swap "a" "X") → c.RenamedBy (Equiv.swap "a" "X").toEmbedding c' :=
    fun ρ _ _ h => ⟨ρ, ρ.injective.injOn, h⟩
  refine .cons (hrenamed (Equiv.refl _) ?_) (.cons
    (hrenamed ((Equiv.swap "a" "X").trans (Equiv.swap "X" "Y")) ?_) (.cons
      (hrenamed (Equiv.swap "Y" "Z") ?_) .nil))
  · decide +kernel
  · decide +kernel
  · decide +kernel

/-- The path over both edges begins at `X` now, and all else is as before. -/
theorem path_from_renamed_constant :
    ∃ (q : Program) (report report' : Report) (db : Database),
      Program.ofClauses pathsRenamed = .ok q ∧
      evaluate {} (Stratification.ofProgram q) (finalState
        (materialize q (Stratification.ofProgram q)
          (seeded.rename (Equiv.swap "a" "X").toEmbedding))) = .ok report' db ∧
      report.RenamedBy (Equiv.swap "a" "X").toEmbedding report' ∧
      ("path", ["X", "c"]) ∈ db.holds := by
  have hpaths : paths.Reachable := .extend _ .empty
  obtain ⟨q, hq, -, -, -, hmat, heval⟩ :=
    (evaluation_commutes_with_renaming hpaths).1 _ _ renamedBy_pathsRenamed
  obtain ⟨n, hmat₁⟩ := exists_materialize_paths
  obtain ⟨report, heval₁⟩ := exists_evaluate_paths false
  obtain ⟨_, hmat₂, -⟩ := (hmat seeded).ok_of_eq_ok hmat₁
  obtain ⟨report', heval₂, hreport⟩ := (heval {} _).ok_of_eq_ok heval₁
  have hprepared :=
    congrArg (fun r => evaluate {} (Stratification.ofProgram q) (finalState r)) hmat₂
  refine ⟨q, report, report', _, hq, hprepared.trans heval₂, hreport, ?_⟩
  rw [Database.mem_holds, Stratification.ofProgram_eq_counted]
  decide +kernel

end Datalog
