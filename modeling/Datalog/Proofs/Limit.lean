import Datalog.Proofs.Fixpoint.States
import Datalog.Proofs.Fixpoint.Termination
import Datalog.Proofs.LeastModel

/-!
# The limit cuts an evaluation short

A limit has no influence on what the rounds do; it only decides whether there is a next one.  So an
evaluation with a limit is the one without, up to the round after which it gives up
(`limit_truncates`).

## Which round that is

The limit speaks of rounds that add something, and the check comes after a round has added its
tuples.  With limit `n`, a recursive stratum may take `n` rounds that add something and one that
does not; when round `n + 1` adds something as well, the evaluation fails, and what that round has
added stays.  A stratum that is not recursive ends after one round, whatever the limit.
-/

namespace Datalog

/-- How often two neighbours differ. -/
def changes : List Database → Nat
  | [] => 0
  | [_] => 0
  | db :: db' :: dbs => (if db' = db then 0 else 1) + changes (db' :: dbs)

/-- A recursive stratum that goes through the given states takes more rounds that add something
than the limit allows. -/
def Stratum.exceeds (limit : Nat) (s : Stratum) (states : List Database) : Bool :=
  s.recursive && decide (limit < changes states)

/-- The place of the first recursive stratum that takes more rounds that add something than the
limit allows. -/
def firstToExceed (limit : Nat) (strata : List Stratum) (states : List (List Database)) :
    Option Nat :=
  (strata.zip states).findIdx? fun x => x.1.exceeds limit x.2

theorem firstToExceed_cons (limit : Nat) (s : Stratum) (strata : List Stratum)
    (states : List Database) (rest : List (List Database)) :
    firstToExceed limit (s :: strata) (states :: rest) =
      if s.exceeds limit states then some 0
      else (firstToExceed limit strata rest).map (· + 1) := by
  unfold firstToExceed
  rw [List.zip_cons_cons, List.findIdx?_cons]

/-! ## Rounds do not know the limit -/

section Settings

variable {σ : Type} [Storage σ] (settings : Settings) (limit : Option Nat)

/-- The same settings with another limit, or with none. -/
def Settings.withLimit (settings : Settings) (limit : Option Nat) : Settings :=
  { settings with maxRounds := limit }

theorem harvest_withLimit (s : Stratum) (round : Nat) (added : Database) (rules : List Rule)
    (h : Harvest) :
    harvest (σ := σ) (settings.withLimit limit) s round added rules h =
      harvest settings s round added rules h := by
  induction rules generalizing h with
  | nil => rfl
  | cons r rules ih =>
    have hrule : deriveInRound (σ := σ) (settings.withLimit limit) s round added r =
        deriveInRound settings s round added r := rfl
    simp only [harvest, hrule, ih]

theorem evaluateRound_withLimit (place : Nat) (s : Stratum) (p : Progress) :
    evaluateRound (σ := σ) (settings.withLimit limit) place s p =
      evaluateRound settings place s p := by
  rw [evaluateRound_def, evaluateRound_def, harvest_withLimit]
  rfl

theorem evaluateRounds_withLimit (place bound : Nat) (s : Stratum) (n : Nat) (p : Progress) :
    evaluateRounds (σ := σ) (settings.withLimit limit) place bound s n p =
      evaluateRounds settings place bound s n p := by
  induction n generalizing p with
  | zero => rw [evaluateRounds, evaluateRounds, evaluateRound_withLimit]
  | succ n ih =>
    rw [evaluateRounds, evaluateRounds, evaluateRound_withLimit]
    simp only [ih]

end Settings

/-! ## One stratum -/

section Rounds

variable {settings : Settings} {place : Nat} {s : Stratum} {p p' q : Progress}
  {db db' : Database}

/-- A round changes the database exactly if it adds something. -/
theorem RoundDone.eq_iff (h : RoundDone settings place s p db p' db') :
    db' = db ↔ p'.added.totalTuples = 0 := by
  rw [h.consistent.addedTo.wellFormed.totalTuples_eq_zero_iff, h.added, Set.sdiff_eq_empty,
    ← h.holds]
  constructor
  · rintro rfl
    exact subset_rfl
  · exact h.grown.eq_of_holds_subset

/-- Rounds with a smaller allowance are the same rounds, or stop at the state in which the allowance
is used up. -/
theorem evaluateRounds_limited {cap : Nat} {p : Progress} {db : Database} (hp : p.Consistent s db)
    (m : Nat) (h : evaluateRounds settings place cap s m p db = .ok q db') (limit n : Nat) :
    let states := db :: statesOfRounds settings place s m p db
    (s.exceeds n states = false → evaluateRounds settings place limit s n p db = .ok q db') ∧
    (s.exceeds n states = true → ∃ cut, states[n + 1]? = some cut ∧
      evaluateRounds settings place limit s n p db =
        .error (.roundLimitExceeded place limit) cut) := by
  obtain ⟨p', mid, hround, hdone⟩ := evaluateRound_eq settings place hp
  rw [evaluateRounds_of_round hround] at h
  rw [evaluateRounds_of_round hround, statesOfRounds_of_round hround]
  by_cases hstop : (p'.added.totalTuples = 0 || !s.recursive) = true
  · rw [if_pos hstop] at h
    have hwithin : s.exceeds n [db, mid] = false := by
      rw [Bool.or_eq_true, decide_eq_true_iff, Bool.not_eq_true'] at hstop
      unfold Stratum.exceeds
      rcases hstop with hnone | hrec
      · simp [changes, hdone.eq_iff.mpr hnone]
      · simp [hrec]
    simp only [if_pos hstop, hwithin]
    exact ⟨fun _ => h, fun hexceeds => absurd hexceeds Bool.false_ne_true⟩
  · rw [if_neg hstop] at h
    cases m with
    | zero => cases h
    | succ m =>
      have hrest : mid ≠ db ∧ s.recursive = true := by
        rw [Bool.or_eq_true, decide_eq_true_iff, Bool.not_eq_true', not_or,
          Bool.not_eq_false] at hstop
        exact ⟨fun hsame => hstop.1 (hdone.eq_iff.mp hsame), hstop.2⟩
      -- The round has changed the database, so the rest may change it once less often.
      have hcount : ∀ states, changes (db :: mid :: states) = changes (mid :: states) + 1 := by
        intro states
        rw [changes, if_neg hrest.1, Nat.add_comm]
      simp only [if_neg hstop]
      cases n with
      | zero =>
        have hexceeds : s.exceeds 0 (db :: mid :: statesOfRounds settings place s m p' mid) =
            true := by
          simp [Stratum.exceeds, hrest.2, hcount]
        rw [hexceeds]
        exact ⟨fun hwithin => absurd hwithin.symm Bool.false_ne_true, fun _ => ⟨mid, rfl, rfl⟩⟩
      | succ n =>
        have hshift : s.exceeds (n + 1) (db :: mid :: statesOfRounds settings place s m p' mid) =
            s.exceeds n (mid :: statesOfRounds settings place s m p' mid) := by
          simp [Stratum.exceeds, hcount]
        rw [hshift]
        exact evaluateRounds_limited hdone.consistent m h limit n
termination_by m

theorem Stratum.evaluate_limited (hdb : db.WellFormed) (hs : s.SupportedBy db)
    {report report' : Report}
    (h : s.evaluate (settings.withLimit none) place report db = .ok report' db') (limit : Nat) :
    let states := s.states (settings.withLimit none) place report db
    (s.exceeds limit states = false →
      s.evaluate (settings.withLimit (some limit)) place report db = .ok report' db') ∧
    (s.exceeds limit states = true → ∃ cut, states[limit + 1]? = some cut ∧
      s.evaluate (settings.withLimit (some limit)) place report db =
        .error (.roundLimitExceeded place limit) cut) := by
  have hallowance : s.allowance (settings.withLimit (some limit)) (Storage.contents db) = limit :=
    rfl
  rw [Stratum.evaluate_def] at h
  rw [Stratum.evaluate_def, Stratum.states, hallowance]
  split at h
  · next hempty =>
    rw [if_pos hempty, if_pos hempty]
    have hwithin : s.exceeds limit [db] = false := by simp [exceeds, changes]
    exact ⟨fun _ => h, fun hexceeds => absurd (hwithin.symm.trans hexceeds) Bool.false_ne_true⟩
  · next hrules =>
    rw [if_neg hrules, if_neg hrules]
    obtain ⟨q, mid, hrounds, h⟩ := bind_eq_ok.mp h
    obtain ⟨hwithin, hexceeding⟩ :=
      evaluateRounds_limited (.begin hdb hs report rfl) _ hrounds limit limit
    rw [evaluateRounds_withLimit] at hwithin hexceeding ⊢
    refine ⟨fun hfits => ?_, fun hexceeds => ?_⟩
    · rw [bind_of_eq_ok _ (hwithin hfits)]
      exact h
    · obtain ⟨cut, hcut, herror⟩ := hexceeding hexceeds
      exact ⟨cut, hcut, bind_of_eq_error _ herror⟩

end Rounds

/-! ## All strata -/

theorem evaluateFrom_limited {settings : Settings} {strata : List Stratum} {place : Nat}
    {report report' : Report} {db db' : Database} (hready : Ready strata db)
    (h : evaluateFrom (settings.withLimit none) place strata report db = .ok report' db')
    (limit : Nat) :
    match firstToExceed limit strata
        (statesFrom (settings.withLimit none) place strata report db) with
    | none =>
      evaluateFrom (settings.withLimit (some limit)) place strata report db = .ok report' db'
    | some i => ∃ states cut,
        (statesFrom (settings.withLimit none) place strata report db)[i]? = some states ∧
        states[limit + 1]? = some cut ∧
        evaluateFrom (settings.withLimit (some limit)) place strata report db =
          .error (.roundLimitExceeded (place + i) limit) cut := by
  induction strata generalizing place report db with
  | nil => exact h
  | cons s strata ih =>
    obtain ⟨report₁, db₁, hfirst, hrest⟩ := bind_eq_ok.mp h
    obtain ⟨hwithin, hexceeding⟩ :=
      s.evaluate_limited hready.wellFormed hready.head hfirst limit
    have htail := ih
      (hready.tail (Stratum.grown_of_evaluate hready.wellFormed hready.head hfirst)) hrest
    rw [statesFrom_of_ok hfirst, firstToExceed_cons, evaluateFrom]
    cases hexceeds : s.exceeds limit (s.states (settings.withLimit none) place report db) with
    | true =>
      obtain ⟨cut, hcut, herror⟩ := hexceeding hexceeds
      exact ⟨_, cut, rfl, hcut, bind_of_eq_error _ herror⟩
    | false =>
      rw [if_neg Bool.false_ne_true, bind_of_eq_ok _ (hwithin hexceeds)]
      split at htail
      · next hplace =>
        rw [hplace]
        exact htail
      · next i hplace =>
        rw [hplace]
        obtain ⟨states, cut, hstates, hcut, herror⟩ := htail
        refine ⟨states, cut, hstates, hcut, ?_⟩
        rw [herror, Nat.add_right_comm, Nat.add_assoc]

/-- **The limit is a pure truncation.**  From a database that has been prepared for a program, the
evaluation without a limit succeeds.  The one with a limit has the same report and the same database
in the end, unless a recursive stratum of the unlimited one takes more rounds that change the
database than the limit allows.  For the first such stratum it fails, and it leaves the database as
the unlimited one has it after round `limit + 1` of this stratum. -/
theorem limit_truncates {p : Program} (hp : p.Reachable) {db₀ db₁ : Database}
    (hdb : db₀.Reachable) {n : Nat}
    (hmat : materialize p (Stratification.ofProgram p) db₀ = .ok n db₁) (settings : Settings)
    (limit : Nat) :
    let strata := Stratification.ofProgram p
    let rounds := roundStates (settings.withLimit none) strata db₁
    rounds.length = strata.strata.length ∧ ∃ report db₂,
      evaluate (settings.withLimit none) strata db₁ = .ok report db₂ ∧
      match firstToExceed limit strata.strata rounds with
      | none => evaluate (settings.withLimit (some limit)) strata db₁ = .ok report db₂
      | some i => ∃ states cut, rounds[i]? = some states ∧ states[limit + 1]? = some cut ∧
          evaluate (settings.withLimit (some limit)) strata db₁ =
            .error (.roundLimitExceeded i limit) cut := by
  intro strata rounds
  have hready := (materialized_of_materialize hmat).ready hp.valid hdb.wellFormed
  obtain ⟨report, db₂, heval⟩ : ∃ report db₂,
      evaluate (settings.withLimit none) strata db₁ = .ok report db₂ :=
    exists_evaluateFrom rfl hready
  have hlimited := evaluateFrom_limited hready heval limit
  simp only [Nat.zero_add] at hlimited
  exact ⟨length_statesFrom heval, report, db₂, heval, hlimited⟩

/-- The evaluation of `paths` takes two rounds that add paths: a limit of two is met exactly, and a
limit of one is exceeded. -/
theorem paths_meet_two_exceed_one :
    let strata := Stratification.ofProgram paths
    let db := finalState (materialize paths strata seeded)
    ∃ report db₂, evaluate { maxRounds := none } strata db = .ok report db₂ ∧
      evaluate { maxRounds := some 2 } strata db = .ok report db₂ ∧
      ∃ i states cut, (roundStates { maxRounds := none } strata db)[i]? = some states ∧
        states[2]? = some cut ∧
        evaluate { maxRounds := some 1 } strata db = .error (.roundLimitExceeded i 1) cut := by
  have hpaths : paths.Reachable := .extend _ .empty
  obtain ⟨n, hmat⟩ := exists_materialize_paths
  have hmeets : succeeds (evaluate (({} : Settings).withLimit (some 2))
      (Stratification.ofProgram paths)
      (finalState (materialize paths (Stratification.ofProgram paths) seeded))) = true := by
    rw [Stratification.ofProgram_eq_counted]
    decide +kernel
  have hexceeds : succeeds (evaluate (({} : Settings).withLimit (some 1))
      (Stratification.ofProgram paths)
      (finalState (materialize paths (Stratification.ofProgram paths) seeded))) = false := by
    rw [Stratification.ofProgram_eq_counted]
    decide +kernel
  obtain ⟨-, report, db₂, heval, htwo⟩ :=
    limit_truncates hpaths reachable_seeded hmat {} 2
  obtain ⟨-, _, _, -, hone⟩ := limit_truncates hpaths reachable_seeded hmat {} 1
  refine ⟨report, db₂, heval, ?_, ?_⟩
  · split at htwo
    · exact htwo
    · obtain ⟨_, _, -, -, herror⟩ := htwo
      rw [herror] at hmeets
      cases hmeets
  · split at hone
    · rw [hone] at hexceeds
      cases hexceeds
    · next i _ => exact ⟨i, hone⟩

end Datalog
