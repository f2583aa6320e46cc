import Datalog.Proofs.Limit
import Datalog.Proofs.Recorded

/-!
# An evaluation asks for nothing that is not there

From a database that has been prepared for a program, an evaluation can only fail by its limit
(`only_limit_ends_evaluation`).  Every relation that it looks up or inserts into is there, with the
arity of the atom or the tuple; the tuples that a round notes never disagree about the arity of
their relation; the variables of a head are bound whenever the head is instantiated; and a position
index has a map for every component of a tuple and notes only places of tuples.

* `Request.Fits`: a database has the relation that a call is about.
* `Traced`: a database with a record of the calls made to it, arguments included.
* `Database.InRange`: the indexes speak only of positions and tuples that are there.

## How the calls are observed

That an evaluation does not fail says little about its calls: it might make none.  So it is run on a
`Traced` storage, on which it does what it does on the database, and every entry of the trace is
shown to fit.  A call on a database that succeeds has found its relation, so the trace is sound as
long as no call has failed (`Traced.Keeps`), and no call fails.
-/

namespace Datalog

/-! ## Calls and their arguments -/

/-- A call to a storage, with its arguments. -/
inductive Request where
  /-- Add an empty relation. -/
  | create (name : Predicate) (arity : Nat)
  /-- Add a tuple to a relation. -/
  | insert (name : Predicate) (t : Tuple)
  /-- All tuples of a relation. -/
  | scan (name : Predicate)
  /-- The tuples of a relation that fit a pattern. -/
  | lookup (name : Predicate) (pattern : Pattern)
  deriving DecidableEq, Repr

/-- The relation is there, with the arity of the tuple or pattern; one that is to be created is not
there with another arity. -/
def Request.Fits (db : Database) : Request → Prop
  | create name arity => ∀ k, db.arity? name = some k → k = arity
  | insert name t => db.arity? name = some t.length
  | scan name => ∃ k, db.arity? name = some k
  | lookup name pattern => db.arity? name = some pattern.length

/-- A database with a record of the calls made. -/
structure Traced where
  /-- The database held. -/
  database : Database
  /-- The calls made so far, the first one first, each with what the database held before it. -/
  calls : List (Request × Database) := []

namespace Traced

/-- Make a call and enter it into the record. -/
def record {α : Type} (request : Request) (onDatabase : EStateM StorageError Database α) :
    EStateM StorageError Traced α := fun s =>
  match onDatabase s.database with
  | .ok a db => .ok a ⟨db, s.calls ++ [(request, s.database)]⟩
  | .error e db => .error e ⟨db, s.calls ++ [(request, s.database)]⟩

theorem viewed_record {α : Type} (request : Request)
    (onDatabase : EStateM StorageError Database α) (s : Traced) :
    Storage.viewed database (record request onDatabase s) = onDatabase s.database := by
  unfold record
  cases onDatabase s.database <;> rfl

instance : Storage Traced where
  contents := database
  create name arity := record (.create name arity) (Database.createCall name arity)
  insert name t := record (.insert name t) (Database.insertCall name t)
  scan name := record (.scan name) (Database.scanCall name)
  lookup name pattern := record (.lookup name pattern) (Database.lookupCall name pattern)
  create_faithful _ _ s := Or.inl (viewed_record _ _ s)
  insert_faithful _ _ s := Or.inl (viewed_record _ _ s)
  scan_faithful _ s := Or.inl (viewed_record _ _ s)
  lookup_faithful _ _ s := Or.inl (viewed_record _ _ s)

/-- Evaluation with a trace does what evaluation on the database does. -/
theorem mirrors_evaluate (settings : Settings) (strata : Stratification) :
    Mirrors (σ := Traced) (evaluate settings strata) (evaluate settings strata) :=
  lockstep_evaluateFrom (Mirrors.lockstepOf (fun _ _ s => viewed_record _ _ s)
    fun _ _ s => viewed_record _ _ s) settings 0 strata.strata {}

/-- All calls have found what they ask for, on databases in good order. -/
structure Sound (s : Traced) : Prop where
  wellFormed : s.database.WellFormed
  fits : ∀ call ∈ s.calls, call.1.Fits call.2 ∧ call.2.WellFormed

/-- Unless it fails in a certain way, the computation keeps the trace sound. -/
def Keeps {ε α : Type} (fails : ε → Prop) (x : EStateM ε Traced α) : Prop :=
  ∀ s, s.Sound → (∀ e s', x s = .error e s' → ¬ fails e) → (finalState (x s)).Sound

theorem Keeps.compositional {ε : Type} (fails : ε → Prop) :
    Compositional fun (α : Type) (x _ : EStateM ε Traced α) => Keeps fails x where
  pure _ _ hs _ := hs
  throw _ _ hs _ := hs
  bind := by
    intro α β x _ f _ hx hf s hs hfails
    cases hrun : x s with
    | ok a s' =>
      rw [bind_of_eq_ok f hrun] at hfails ⊢
      have hmid := hx s hs fun e s'' heq => by
        rw [hrun] at heq
        cases heq
      rw [hrun] at hmid
      exact hf a s' hmid hfails
    | error e s' =>
      rw [bind_of_eq_error f hrun] at hfails ⊢
      have hend := hx s hs fun e' s'' heq => by
        rw [hrun] at heq
        cases heq
        exact hfails e s' rfl
      rw [hrun] at hend
      exact hend

/-- A call that fits whenever it succeeds. -/
theorem keeps_record {α : Type} {request : Request} {onDatabase : EStateM StorageError Database α}
    (h : ∀ {db db' : Database} {a : α}, db.WellFormed → onDatabase db = .ok a db' →
      request.Fits db ∧ db'.WellFormed) : Keeps (fun _ => True) (record request onDatabase) := by
  intro s hs hfails
  cases hrun : onDatabase s.database with
  | ok a db =>
    have hrecord : record request onDatabase s =
        .ok a ⟨db, s.calls ++ [(request, s.database)]⟩ := by
      rw [record, hrun]
    obtain ⟨hfits, hdb⟩ := h hs.wellFormed hrun
    rw [hrecord]
    refine ⟨hdb, fun call hcall => ?_⟩
    rcases List.mem_append.mp hcall with hcall | hcall
    · exact hs.fits call hcall
    · obtain rfl := List.mem_singleton.mp hcall
      exact ⟨hfits, hs.wellFormed⟩
  | error e db =>
    refine absurd trivial (hfails e ⟨db, s.calls ++ [(request, s.database)]⟩ ?_)
    rw [record, hrun]

/-- Evaluation keeps the trace sound, unless the storage fails. -/
theorem keeps_evaluate (settings : Settings) (strata : Stratification) :
    Keeps (fun e => ∃ reason, e = .storage reason) (evaluate settings strata) := by
  have hlockstep : Lockstep
      (fun (α : Type) (x _ : EStateM StorageError Traced α) => Keeps (fun _ => True) x)
      (fun (α : Type) (x _ : EStateM EvaluationError Traced α) =>
        Keeps (fun e => ∃ reason, e = .storage reason) x) := by
    refine ⟨Keeps.compositional _, ?lookup, ?insert, Keeps.compositional _, ?adapt, ?look⟩
    case lookup =>
      refine fun name pattern => keeps_record fun hdb hrun => ?_
      obtain ⟨hfound, rfl⟩ := Storage.lookup_database_eq_ok.mp hrun
      exact ⟨(hdb.lookup_eq_ok_iff.mp hfound).1, hdb⟩
    case insert =>
      refine fun name t => keeps_record fun hdb hrun => ?_
      have hins := Storage.insert_database_eq_ok.mp hrun
      exact ⟨(Database.inserted_of_insert hins).arity?_self, hdb.insert hins⟩
    case adapt =>
      intro α x _ hx s hs hfails
      cases hrun : x s with
      | ok a s' =>
        have hend := hx s hs fun e s'' heq => by
          rw [hrun] at heq
          cases heq
        rw [hrun] at hend
        rw [adaptExcept_eq_ok.mpr hrun]
        exact hend
      | error e s' => exact absurd ⟨e, rfl⟩ (hfails _ _ (adaptExcept_of_eq_error hrun))
    case look => exact fun hf s => hf (Storage.contents s) s
  exact lockstep_evaluateFrom hlockstep settings 0 strata.strata {}

end Traced

/-! ## Indexes -/

/-- There is a position map for every component of a tuple, and the maps note nothing but places of
tuples. -/
structure Relation.InRange (r : Relation) : Prop where
  length_index : r.index.length = r.arity
  place_lt : ∀ (position : Nat) (value : Constant) (places : List Nat),
    r.index.places? position value = some places → ∀ i ∈ places, i < r.tuples.length

/-- The indexes of all relations are in range. -/
def Database.InRange (db : Database) : Prop :=
  ∀ name r, db.relations.find? name = some r → r.InRange

theorem Relation.WellFormed.inRange {r : Relation} (h : r.WellFormed) : r.InRange where
  length_index := h.length_index
  place_lt position value places hplaces i hi := by
    rw [h.exact_index position value] at hplaces
    obtain ⟨rfl, -⟩ := entryOf_eq_some_iff.mp hplaces
    obtain ⟨t, ht, -⟩ := mem_placesOf.mp hi
    exact (List.getElem?_eq_some_iff.mp ht).1

theorem Database.WellFormed.inRange {db : Database} (h : db.WellFormed) : db.InRange :=
  fun _ _ hr => (h.relation hr).inRange

/-! ## Heads -/

section Joins

open Substitution

variable {σ : Type} [Storage σ] {st st' : σ} {n : Nat} {ss found : List Substitution}

/-- Whatever the storage gives, an extension is a match. -/
theorem match?_of_extendAll {range : Range} {a : Atom}
    (h : extendAll range a ss st = .ok (found, n) st') {s' : Substitution} (hs' : s' ∈ found) :
    ∃ s ∈ ss, ∃ t, a.match? t s = some s' := by
  induction ss generalizing st found n with
  | nil =>
    obtain ⟨heq, -⟩ := pure_eq_ok.mp h
    cases heq
    cases hs'
  | cons s ss ih =>
    obtain ⟨ts, st₁, -, h⟩ := bind_eq_ok.mp h
    obtain ⟨⟨extended, fetched⟩, st₂, hrest, h⟩ := bind_eq_ok.mp h
    obtain ⟨heq, rfl⟩ := pure_eq_ok.mp h
    cases heq
    rcases List.mem_append.mp hs' with hs' | hs'
    · obtain ⟨t, -, ht⟩ := List.mem_filterMap.mp hs'
      exact ⟨s, List.mem_cons_self, t, ht⟩
    · obtain ⟨s₁, hs₁, t, ht⟩ := ih hrest hs'
      exact ⟨s₁, List.mem_cons_of_mem s hs₁, t, ht⟩

/-- A join binds the variables of all atoms joined. -/
theorem binds_of_join {body : List (Range × Atom)} (h : join body ss st = .ok (found, n) st')
    {s' : Substitution} (hs' : s' ∈ found) :
    (∃ s ∈ ss, s.Extends s') ∧ ∀ p ∈ body, ∀ x ∈ p.2.vars, s'.Binds x := by
  induction body generalizing ss st n with
  | nil =>
    obtain ⟨heq, -⟩ := pure_eq_ok.mp h
    cases heq
    exact ⟨⟨s', hs', Extends.refl s'⟩, fun _ hp => absurd hp List.not_mem_nil⟩
  | cons p rest ih =>
    obtain ⟨⟨extended, fetched⟩, st₁, hfirst, h⟩ := bind_eq_ok.mp h
    obtain ⟨⟨joined, more⟩, st₂, hrest, h⟩ := bind_eq_ok.mp h
    obtain ⟨heq, rfl⟩ := pure_eq_ok.mp h
    cases heq
    obtain ⟨⟨s₁, hs₁, hext⟩, hbinds⟩ := ih hrest
    obtain ⟨s, hs, t, hmatch⟩ := match?_of_extendAll hfirst hs₁
    refine ⟨⟨s, hs, (Atom.extends_of_match? hmatch).trans hext⟩, fun q hq x hx => ?_⟩
    rcases List.mem_cons.mp hq with rfl | hq
    · exact hext.binds (Atom.binds_of_match? hmatch hx)
    · exact hbinds q hq x hx

/-- The head of a rule can be instantiated whenever its body has been joined. -/
theorem Rule.RangeRestricted.exists_instance? {r : Rule} (hr : r.RangeRestricted)
    {body : List (Range × Atom)} (hbody : body.map Prod.snd = r.body)
    (h : join body ss st = .ok (found, n) st') {s' : Substitution} (hs' : s' ∈ found) :
    ∃ t, r.head.instance? s' = some t := by
  refine ⟨_, Atom.instance?_eq_some (agrees_valuation s') fun x hx => ?_⟩
  obtain ⟨a, ha, hxa⟩ := List.mem_flatMap.mp (hr x hx)
  rw [← hbody] at ha
  obtain ⟨p, hp, rfl⟩ := List.mem_map.mp ha
  exact (binds_of_join h hs').2 p hp x hxa

end Joins

/-! ## The tuples that a round notes -/

section Noting

variable {db db' added added' : Database}

theorem addedTo_of_commitTuples {name : Predicate} {ts : List Tuple} (h : added.AddedTo db)
    (hcommit : commitTuples name ts added db = .ok added' db') : added'.AddedTo db' := by
  induction ts generalizing db added with
  | nil =>
    obtain ⟨rfl, rfl⟩ := pure_eq_ok.mp hcommit
    exact h
  | cons t ts ih =>
    obtain ⟨isNew, mid, hins, -⟩ := bind_eq_ok.mp hcommit
    have harity := (Database.inserted_of_insert (Storage.insert_database_eq_ok.mp hins)).arity?_self
    obtain ⟨added₁, mid₁, hfirst, hcommitted⟩ := commitTuples_cons h harity ts
    rw [hfirst] at hcommit
    exact ih hcommitted.addedTo hcommit

/-- The tuples noted have the arities that they have in the database. -/
theorem addedTo_of_commit {entries : List (Predicate × List Tuple)} (h : added.AddedTo db)
    (hcommit : commit entries added db = .ok added' db') : added'.AddedTo db' := by
  induction entries generalizing db added with
  | nil =>
    obtain ⟨rfl, rfl⟩ := pure_eq_ok.mp hcommit
    exact h
  | cons e entries ih =>
    obtain ⟨added₁, mid, hfirst, hrest⟩ := bind_eq_ok.mp hcommit
    exact ih (addedTo_of_commitTuples h hfirst) hrest

end Noting

/-! ## Errors -/

/-- An evaluation that fails has exceeded its limit. -/
theorem eq_roundLimitExceeded_of_evaluateFrom {settings : Settings} {strata : List Stratum}
    {place : Nat} {report : Report} {db db' : Database} {e : EvaluationError}
    (hready : Ready strata db) (h : evaluateFrom settings place strata report db = .error e db') :
    ∃ i limit, settings.maxRounds = some limit ∧ e = .roundLimitExceeded i limit := by
  cases hmax : settings.maxRounds with
  | none =>
    obtain ⟨report', db'', hok⟩ : ∃ report' db'',
        evaluateFrom settings place strata report db = .ok report' db'' :=
      exists_evaluateFrom hmax hready
    rw [h] at hok
    cases hok
  | some limit =>
    have hsame : settings.withLimit (some limit) = settings := by rw [← hmax]; rfl
    obtain ⟨report', db'', hunlimited⟩ : ∃ report' db'',
        evaluateFrom (settings.withLimit none) place strata report db = .ok report' db'' :=
      exists_evaluateFrom rfl hready
    have hlimited := evaluateFrom_limited hready hunlimited limit
    rw [hsame, h] at hlimited
    split at hlimited
    · cases hlimited
    · next i _ =>
      obtain ⟨_, _, -, -, herror⟩ := hlimited
      exact ⟨place + i, limit, rfl, (EStateM.Result.error.inj herror).1⟩

/-- **Only the limit ends an evaluation.**  Let a database be prepared for a program, whatever it
held before.  If an evaluation fails, it has a limit and has exceeded it.  Its calls, seen on a
storage that does the same and keeps a record, all ask for relations that are there, with the arity
of the tuple or pattern, and all indexes are in range.  The head of a rule can be instantiated with
whatever a join of the body gives.  What a commit has noted is in range as well, and every further
tuple that fits the database can be noted besides. -/
theorem only_limit_ends_evaluation {p : Program} (hp : p.Reachable) {db₀ db₁ : Database}
    (hdb : db₀.Reachable) {n : Nat}
    (hmat : materialize p (Stratification.ofProgram p) db₀ = .ok n db₁) (settings : Settings) :
    let strata := Stratification.ofProgram p
    let traced := evaluate settings strata (Traced.mk db₁ [])
    (∀ e db₂, evaluate settings strata db₁ = .error e db₂ →
      ∃ i limit, settings.maxRounds = some limit ∧ e = .roundLimitExceeded i limit) ∧
    (Storage.viewed Traced.database traced = evaluate settings strata db₁ ∧
      ∀ call ∈ (finalState traced).calls, call.1.Fits call.2 ∧ call.2.InRange) ∧
    (∀ r ∈ p.rules, ∀ (body : List (Range × Atom)) (db : Database) ss k db',
      body.map Prod.snd = r.body → join body [∅] db = .ok (ss, k) db' →
        ∀ s ∈ ss, ∃ t, r.head.instance? s = some t) ∧
    ∀ entries (db : Database) added db', commit entries ∅ db = .ok added db' → added.InRange ∧
      ∀ name t, db'.arity? name = some t.length →
        ∃ added', noteAdded added name t = .ok added' := by
  intro strata traced
  have hready := (materialized_of_materialize hmat).ready hp.valid hdb.wellFormed
  have hview : Storage.viewed Traced.database traced = evaluate settings strata db₁ :=
    Traced.mirrors_evaluate settings strata (Traced.mk db₁ [])
  have herror : ∀ e db₂, evaluate settings strata db₁ = .error e db₂ →
      ∃ i limit, settings.maxRounds = some limit ∧ e = .roundLimitExceeded i limit :=
    fun _ _ => eq_roundLimitExceeded_of_evaluateFrom hready
  have hsound : (finalState traced).Sound := by
    refine Traced.keeps_evaluate settings strata (Traced.mk db₁ [])
      ⟨hready.wellFormed, fun _ hcall => absurd hcall List.not_mem_nil⟩ ?_
    rintro e s' hrun ⟨reason, rfl⟩
    have hrun' : traced = .error (.storage reason) s' := hrun
    rw [hrun'] at hview
    obtain ⟨i, limit, -, hlimit⟩ := herror _ _ hview.symm
    cases hlimit
  refine ⟨herror, ⟨hview, fun call hcall => ?_⟩, ?_, ?_⟩
  · obtain ⟨hfits, hcalled⟩ := hsound.fits call hcall
    exact ⟨hfits, hcalled.inRange⟩
  · intro r hr body db ss k db' hbody hjoin s hs
    exact (hp.valid.rangeRestricted hr).exists_instance? hbody hjoin hs
  · intro entries db added db' hcommit
    have hadded : added.AddedTo db' :=
      addedTo_of_commit ⟨.empty, fun name k hk => by cases hk⟩ hcommit
    refine ⟨hadded.wellFormed.inRange, fun name t harity => ?_⟩
    obtain ⟨added', hnote, -⟩ := noteAdded_eq_ok hadded harity
    exact ⟨added', hnote⟩

/-- The evaluation of `paths` makes calls, and exceeds a limit of one round; all its calls fit. -/
theorem paths_exceed_one_with_fitting_calls :
    ∃ db : Database, ∃ i cut, evaluate { maxRounds := some 1 } (Stratification.ofProgram paths) db =
        .error (.roundLimitExceeded i 1) cut ∧
      ∃ traced : Traced, traced.database = cut ∧ traced.calls ≠ [] ∧
        ∀ call ∈ traced.calls, call.1.Fits call.2 := by
  have hpaths : paths.Reachable := .extend _ .empty
  obtain ⟨n, hmat⟩ := exists_materialize_paths
  obtain ⟨herror, ⟨hview, hcalls⟩, -⟩ :=
    only_limit_ends_evaluation hpaths reachable_seeded hmat { maxRounds := some 1 }
  obtain ⟨e, heval⟩ := eq_error_of_not_succeeds
    (r := evaluate { maxRounds := some 1 } (Stratification.ofProgram paths)
      (finalState (materialize paths (Stratification.ofProgram paths) seeded)))
    (by rw [Stratification.ofProgram_eq_counted]; decide +kernel)
  obtain ⟨i, limit, hlimit, rfl⟩ := herror _ _ heval
  obtain rfl := Option.some.inj hlimit
  refine ⟨_, i, _, heval, _, ?_, ?_, fun call hcall => (hcalls call hcall).1⟩
  · rw [← hview, Storage.finalState_viewed]
  · refine List.isEmpty_eq_false_iff.mp ?_
    rw [Stratification.ofProgram_eq_counted]
    decide +kernel

end Datalog
