import Datalog.Proofs.LeastModel

/-!
# Both strategies take the same rounds

A round of a stratum adds what one application of the rules adds, whatever its joins range over
(`evaluateRound_eq`).  So two evaluations that start from the same atoms and differ in the strategy
go through the same rounds: each adds the same atoms, and they end together, at the fixpoint or at
the limit (`evaluate_naive_alike`).

* `Report.Alike`: the same strata, rounds, numbers of new tuples and derivations.
* `EndAlike`: both succeed, or both exceed the same limit, and the databases state the same.
* `additions`: the atoms that each round of each stratum adds.
-/

namespace Datalog

/-- The same rounds, with the same numbers of new tuples. -/
structure StratumReport.Alike (a b : StratumReport) : Prop where
  predicates : a.predicates = b.predicates
  recursive : a.recursive = b.recursive
  rounds : a.rounds = b.rounds
  newPerRound : a.newPerRound = b.newPerRound

/-- Reports that agree in all strata and in the derivations of all tuples. -/
structure Report.Alike (a b : Report) : Prop where
  strata : List.Forall₂ StratumReport.Alike a.strata b.strata
  derivation? : ∀ name t, a.derivation? name t = b.derivation? name t

theorem Report.Alike.append {a b : Report} (h : a.Alike b) {x y : StratumReport} (hxy : x.Alike y) :
    Report.Alike { a with strata := a.strata ++ [x] } { b with strata := b.strata ++ [y] } :=
  ⟨List.rel_append h.strata (.cons hxy .nil), h.derivation?⟩

/-- Reports that agree so far, those of the current stratum included. -/
structure Progress.Alike (p q : Progress) : Prop where
  report : p.report.Alike q.report
  stratum : p.stratum.Alike q.stratum

/-- Both evaluations succeed with values that are alike, or both exceed the same limit; and the
databases then state the same atoms. -/
def EndAlike {α : Type} (R : α → α → Prop) :
    EStateM.Result EvaluationError Database α → EStateM.Result EvaluationError Database α → Prop
  | .ok a db, .ok b e => R a b ∧ db.holds = e.holds
  | .error x db, .error y e =>
    (∃ place limit, x = .roundLimitExceeded place limit ∧ y = .roundLimitExceeded place limit) ∧
      db.holds = e.holds
  | _, _ => False

/-- Evaluations that end alike end in one of two ways. -/
theorem EndAlike.cases {α : Type} {R : α → α → Prop}
    {r r' : EStateM.Result EvaluationError Database α} (h : EndAlike R r r') :
    (∃ a db b e, r = .ok a db ∧ r' = .ok b e ∧ R a b ∧ db.holds = e.holds) ∨
      ∃ place limit db e, r = .error (.roundLimitExceeded place limit) db ∧
        r' = .error (.roundLimitExceeded place limit) e ∧ db.holds = e.holds := by
  cases r with
  | ok a db =>
    cases r' with
    | ok b e => exact Or.inl ⟨a, db, b, e, rfl, rfl, h⟩
    | error y e => exact h.elim
  | error x db =>
    cases r' with
    | ok b e => exact h.elim
    | error y e =>
      obtain ⟨⟨place, limit, rfl, rfl⟩, hsame⟩ := h
      exact Or.inr ⟨place, limit, db, e, rfl, rfl, hsame⟩

theorem EndAlike.map {α β : Type} {R : α → α → Prop} {S : β → β → Prop}
    {x y : EStateM EvaluationError Database α} {f g : α → β} {db e : Database}
    (h : EndAlike R (x db) (y e)) (hfg : ∀ a b, R a b → S (f a) (g b)) :
    EndAlike S ((x >>= fun a => pure (f a)) db) ((y >>= fun b => pure (g b)) e) := by
  rcases h.cases with ⟨a, db', b, e', hx, hy, hab, hsame⟩ | ⟨place, limit, db', e', hx, hy, hsame⟩
  · rw [bind_of_eq_ok _ hx, bind_of_eq_ok _ hy]
    exact ⟨hfg a b hab, hsame⟩
  · rw [bind_of_eq_error _ hx, bind_of_eq_error _ hy]
    exact ⟨⟨place, limit, rfl, rfl⟩, hsame⟩

/-! ## The atoms that each round adds -/

/-- The atoms that each round of a stratum adds, of which as many as the allowance says may add
any. -/
def additionsOfRounds (settings : Settings) (place : Nat) (s : Stratum) :
    Nat → Progress → Database → List Interpretation
  | allowance, p, db =>
    match evaluateRound settings place s p db with
    | .error _ _ => []
    | .ok p' db' =>
      (db'.holds \ db.holds) ::
        if p'.added.totalTuples = 0 || !s.recursive then []
        else
          match allowance with
          | 0 => []
          | remaining + 1 => additionsOfRounds settings place s remaining p' db'

/-- The atoms that each round of a stratum adds. -/
def Stratum.additions (settings : Settings) (place : Nat) (s : Stratum) (report : Report)
    (db : Database) : List Interpretation :=
  if s.rules.isEmpty then []
  else
    additionsOfRounds settings place s (s.allowance settings db)
      { report := report
        stratum := { predicates := s.predicates, recursive := s.recursive } } db

/-- The atoms that each round of each stratum adds, up to the end of the evaluation. -/
def additionsFrom (settings : Settings) :
    Nat → List Stratum → Report → Database → List (List Interpretation)
  | _, [], _, _ => []
  | place, s :: strata, report, db =>
    s.additions settings place report db ::
      match s.evaluate settings place report db with
      | .error _ _ => []
      | .ok report' db' => additionsFrom settings (place + 1) strata report' db'

/-- The atoms that each round of each stratum adds. -/
def additions (settings : Settings) (strata : Stratification) (db : Database) :
    List (List Interpretation) := additionsFrom settings 0 strata.strata {} db

/-! ## Two evaluations side by side -/

/-- The capacity of a stratum depends only on the atoms stated. -/
theorem Stratum.capacity_congr (s : Stratum) {db e : Database} (hdb : db.WellFormed)
    (he : e.WellFormed) (h : db.holds = e.holds) : s.capacity db = s.capacity e := by
  have hdomain : (s.domain db).length = (s.domain e).length := by
    refine length_eraseDups_congr fun c => ?_
    rw [List.mem_append, List.mem_append, hdb.mem_constants, he.mem_constants, h]
  unfold capacity
  rw [hdomain]

section Pair

variable {settings settings' : Settings} {place limit : Nat} {s : Stratum} {p q p' q' : Progress}
  {db e db' e' : Database}

/-- A round keeps two evaluations alike. -/
theorem RoundDone.alike (hprov : settings.trackProvenance = settings'.trackProvenance)
    (hp : RoundDone settings place s p db p' db') (hq : RoundDone settings' place s q e q' e')
    (halike : p.Alike q) (h : db.holds = e.holds) :
    p'.Alike q' ∧ db'.holds = e'.holds ∧ p'.added.totalTuples = q'.added.totalTuples := by
  have hadded : p'.added.holds = q'.added.holds := by rw [hp.added, hq.added, h]
  have hwf := hp.consistent.addedTo.wellFormed
  have hwf' := hq.consistent.addedTo.wellFormed
  have htotal := hwf.totalTuples_congr hwf' hadded
  refine ⟨⟨⟨?_, fun name t => ?_⟩, ⟨?_, ?_, ?_, ?_⟩⟩, ?_, htotal⟩
  · rw [hp.strata, hq.strata]
    exact halike.report.strata
  · have hmem : (name, t) ∈ p'.added.listing ↔ (name, t) ∈ q'.added.listing := by
      rw [hwf.mem_listing, hwf'.mem_listing, hadded]
    rw [hp.derivation?, hq.derivation?, halike.report.derivation? name t, hprov,
      halike.stratum.rounds]
    simp only [hmem]
  · rw [hp.predicates, hq.predicates, halike.stratum.predicates]
  · rw [hp.recursive, hq.recursive, halike.stratum.recursive]
  · rw [hp.rounds, hq.rounds, halike.stratum.rounds]
  · rw [hp.newPerRound, hq.newPerRound, halike.stratum.newPerRound, htotal]
  · rw [hp.holds, hq.holds, h]

theorem evaluateRounds_alike (limit : Nat)
    (hprov : settings.trackProvenance = settings'.trackProvenance)
    {p q : Progress} {db e : Database} (hp : p.Consistent s db) (hq : q.Consistent s e)
    (halike : p.Alike q) (h : db.holds = e.holds) (n : Nat) :
    EndAlike Progress.Alike (evaluateRounds settings place limit s n p db)
        (evaluateRounds settings' place limit s n q e) ∧
      additionsOfRounds settings place s n p db = additionsOfRounds settings' place s n q e := by
  obtain ⟨p', db', hround, hdone⟩ := evaluateRound_eq settings place hp
  obtain ⟨q', e', hround', hdone'⟩ := evaluateRound_eq settings' place hq
  obtain ⟨halike', h', htotal⟩ := hdone.alike hprov hdone' halike h
  rw [evaluateRounds_of_round hround, evaluateRounds_of_round hround']
  rw [additionsOfRounds, additionsOfRounds, hround, hround']
  simp only [h, h', htotal]
  split
  · exact ⟨⟨halike', h'⟩, rfl⟩
  · cases n with
    | zero => exact ⟨⟨⟨place, limit, rfl, rfl⟩, h'⟩, rfl⟩
    | succ n =>
      obtain ⟨hend, hadd⟩ := evaluateRounds_alike limit hprov hdone.consistent hdone'.consistent
        halike' h' n
      exact ⟨hend, congrArg _ hadd⟩
termination_by n

theorem Stratum.evaluate_alike (s : Stratum) (place : Nat)
    (hprov : settings.trackProvenance = settings'.trackProvenance)
    (hmax : settings.maxRounds = settings'.maxRounds) (hdb : db.WellFormed) (he : e.WellFormed)
    (hs : s.SupportedBy db) (hs' : s.SupportedBy e) {report report' : Report}
    (halike : report.Alike report') (h : db.holds = e.holds) :
    EndAlike Report.Alike (s.evaluate settings place report db)
        (s.evaluate settings' place report' e) ∧
      s.additions settings place report db = s.additions settings' place report' e := by
  have hbegun : s.begun.Alike s.begun := ⟨rfl, rfl, rfl, rfl⟩
  have hallowance : s.allowance settings db = s.allowance settings' e := by
    unfold Stratum.allowance
    rw [hmax, s.capacity_congr hdb he h]
  rw [Stratum.evaluate_def, Stratum.evaluate_def, Stratum.additions, Stratum.additions,
    Storage.contents_database, Storage.contents_database, ← hallowance]
  split
  · exact ⟨⟨halike.append hbegun, h⟩, rfl⟩
  · obtain ⟨hend, hadd⟩ := evaluateRounds_alike (s.allowance settings db) hprov
      (.begin hdb hs report rfl) (.begin he hs' report' rfl) ⟨halike, hbegun⟩ h
      (s.allowance settings db)
    exact ⟨hend.map fun p q hpq => hpq.report.append hpq.stratum, hadd⟩

theorem evaluateFrom_alike (place : Nat)
    (hprov : settings.trackProvenance = settings'.trackProvenance)
    (hmax : settings.maxRounds = settings'.maxRounds) {strata : List Stratum} {db e : Database}
    (hready : Ready strata db) (hready' : Ready strata e) {report report' : Report}
    (halike : report.Alike report') (h : db.holds = e.holds) :
    EndAlike Report.Alike (evaluateFrom settings place strata report db)
        (evaluateFrom settings' place strata report' e) ∧
      additionsFrom settings place strata report db =
        additionsFrom settings' place strata report' e := by
  induction strata generalizing place db e report report' with
  | nil => exact ⟨⟨halike, h⟩, rfl⟩
  | cons s strata ih =>
    obtain ⟨hend, hadd⟩ := s.evaluate_alike place hprov hmax hready.wellFormed
      hready'.wellFormed hready.head hready'.head halike h
    rw [evaluateFrom, evaluateFrom, additionsFrom, additionsFrom, ← hadd]
    rcases hend.cases with ⟨a, db', b, e', hx, hy, hab, hsame⟩ |
      ⟨at', limit, db', e', hx, hy, hsame⟩
    · have hrest := hready.tail (Stratum.grown_of_evaluate hready.wellFormed hready.head hx)
      have hrest' := hready'.tail (Stratum.grown_of_evaluate hready'.wellFormed hready'.head hy)
      obtain ⟨hends, hadds⟩ := ih (place + 1) hrest hrest' hab hsame
      rw [bind_of_eq_ok _ hx, bind_of_eq_ok _ hy, hx, hy]
      exact ⟨hends, congrArg _ hadds⟩
    · rw [bind_of_eq_error _ hx, bind_of_eq_error _ hy, hx, hy]
      exact ⟨⟨⟨at', limit, rfl, rfl⟩, hsame⟩, rfl⟩

end Pair

/-! ## The additions are what the evaluation adds -/

/-- The atoms that some of the given rounds add. -/
def allOf (rounds : List Interpretation) : Interpretation := {g | ∃ A ∈ rounds, g ∈ A}

theorem allOf_nil : allOf [] = ∅ := by
  ext g
  simp [allOf]

theorem allOf_cons (A : Interpretation) (rounds : List Interpretation) :
    allOf (A :: rounds) = A ∪ allOf rounds := by
  ext g
  exact List.exists_mem_cons_iff _ _ _

theorem allOf_append (rounds rounds' : List Interpretation) :
    allOf (rounds ++ rounds') = allOf rounds ∪ allOf rounds' := by
  induction rounds with
  | nil => rw [List.nil_append, allOf_nil, Set.empty_union]
  | cons A rounds ih => rw [List.cons_append, allOf_cons, allOf_cons, ih, Set.union_assoc]

section Sum

variable {settings : Settings} {s : Stratum} {db : Database}

theorem holds_of_additionsOfRounds {place : Nat} (limit : Nat) {p : Progress} {db : Database}
    (hp : p.Consistent s db) (n : Nat) :
    (finalState (evaluateRounds settings place limit s n p db)).holds =
      db.holds ∪ allOf (additionsOfRounds settings place s n p db) := by
  obtain ⟨p', db', hround, hdone⟩ := evaluateRound_eq settings place hp
  have hsplit : db'.holds = db.holds ∪ (db'.holds \ db.holds) :=
    (Set.union_sdiff_cancel hdone.grown.holds_subset).symm
  rw [evaluateRounds_of_round hround, additionsOfRounds, hround]
  simp only
  rw [allOf_cons, ← Set.union_assoc, ← hsplit]
  split
  · rw [allOf_nil, Set.union_empty]
    rfl
  · cases n with
    | zero =>
      simp only
      rw [allOf_nil, Set.union_empty]
      rfl
    | succ n => exact holds_of_additionsOfRounds limit hdone.consistent n
termination_by n

theorem Stratum.holds_of_additions (s : Stratum) (settings : Settings) (place : Nat)
    (report : Report) (hdb : db.WellFormed) (hs : s.SupportedBy db) :
    (finalState (s.evaluate settings place report db)).holds =
      db.holds ∪ allOf (s.additions settings place report db) := by
  rw [Stratum.evaluate_def, Stratum.additions]
  split
  · rw [allOf_nil, Set.union_empty]
    rfl
  · rw [finalState_bind_pure]
    exact holds_of_additionsOfRounds _ (.begin hdb hs report rfl) _

theorem holds_of_additionsFrom {strata : List Stratum} {place : Nat} {report : Report}
    {db : Database} (hready : Ready strata db) :
    (finalState (evaluateFrom settings place strata report db)).holds =
      db.holds ∪ allOf (additionsFrom settings place strata report db).flatten := by
  induction strata generalizing place report db with
  | nil =>
    show db.holds = db.holds ∪ allOf []
    rw [allOf_nil, Set.union_empty]
  | cons s strata ih =>
    have hfirst := s.holds_of_additions settings place report hready.wellFormed hready.head
    rw [evaluateFrom, additionsFrom, List.flatten_cons, allOf_append, ← Set.union_assoc, ← hfirst]
    cases hx : s.evaluate settings place report db with
    | error x db' =>
      rw [bind_of_eq_error _ hx]
      show db'.holds = db'.holds ∪ allOf []
      rw [allOf_nil, Set.union_empty]
    | ok a db' =>
      rw [bind_of_eq_ok _ hx]
      exact ih (hready.tail (Stratum.grown_of_evaluate hready.wellFormed hready.head hx))

end Sum

/-- **Both strategies take the same rounds.**  From a database that has been prepared for a program,
the two strategies both succeed or both exceed the same limit in the same stratum, every round of
every stratum adds the same atoms, the reports agree in all rounds, counts and derivations, and the
databases state the same atoms afterwards, also if the limit is exceeded. -/
theorem evaluate_naive_alike {p : Program} (hp : p.Reachable) {db₀ db₁ : Database}
    (hdb : db₀.Reachable) {n : Nat}
    (hmat : materialize p (Stratification.ofProgram p) db₀ = .ok n db₁) (settings : Settings) :
    EndAlike Report.Alike
        (evaluate { settings with strategy := .semiNaive } (Stratification.ofProgram p) db₁)
        (evaluate { settings with strategy := .naive } (Stratification.ofProgram p) db₁) ∧
      additions { settings with strategy := .semiNaive } (Stratification.ofProgram p) db₁ =
        additions { settings with strategy := .naive } (Stratification.ofProgram p) db₁ := by
  have hready := (materialized_of_materialize hmat).ready hp.valid hdb.wellFormed
  have hbegin : Report.Alike {} {} := ⟨.nil, fun _ _ => rfl⟩
  have hprov : ({ settings with strategy := .semiNaive } : Settings).trackProvenance =
      ({ settings with strategy := .naive } : Settings).trackProvenance := rfl
  exact evaluateFrom_alike 0 hprov rfl hready hready hbegin rfl

/-- The evaluation of `paths` needs more than one round that adds paths, with either strategy. -/
theorem paths_exceed_the_same_limit :
    let strata := Stratification.ofProgram paths
    let db := finalState (materialize paths strata seeded)
    succeeds (evaluate { maxRounds := some 1 } strata db) = false ∧
      EndAlike Report.Alike (evaluate { maxRounds := some 1, strategy := .semiNaive } strata db)
        (evaluate { maxRounds := some 1, strategy := .naive } strata db) := by
  obtain ⟨n, hmat⟩ := exists_materialize_paths
  have halike := evaluate_naive_alike (.extend _ .empty) reachable_seeded hmat
    { maxRounds := some 1 }
  refine ⟨?_, halike.1⟩
  rw [Stratification.ofProgram_eq_counted]
  decide +kernel

end Datalog
