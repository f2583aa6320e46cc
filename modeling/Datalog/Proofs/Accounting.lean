import Datalog.Proofs.Appending
import Datalog.Proofs.Database.Counting
import Datalog.Proofs.StratumStart

/-!
# The report accounts for every tuple

A round counts the tuples that it has noted as new.  They are noted in a database of their own, and
what that database states are the atoms by which the storage has grown, each of them once, however
many rules have derived them.  So the counts of a stratum add up to the growth of its relations,
those of all strata to the growth of the database, and with provenance every count is the number of
tuples that are said to come from this round (`report_accounts_for_every_tuple`).

* `Stratum.Tally`: the counts of the rounds of a stratum.
* `StratumReport.Tells`: what the entry of a stratum says about two databases.
* `Report.Accounts`: there are as many tuples with each derivation as the report counts.

## Why provenance needs no induction over rounds of its own

That the derivations agree with the counts, and that only stated atoms have one, is an invariant of
the records together with the database.  A round adds one count, for a moment that no tuple has been
noted for, and it notes this moment for as many tuples; for all other moments nothing changes.
-/

namespace Datalog

/-! ## One stratum -/

/-- The counts of the rounds that a stratum takes from one database to another. -/
structure Stratum.Tally (s : Stratum) (counts : List Nat) (db db' : Database) : Prop where
  /-- Without recursion there is one round. -/
  flat : s.recursive = false → ∃ k, counts = [k]
  /-- With recursion all rounds but the last add something. -/
  recursive : s.recursive = true → ∃ front, counts = front ++ [0] ∧ ∀ k ∈ front, 0 < k
  /-- The database grows by as many tuples. -/
  totalTuples : db'.totalTuples = db.totalTuples + total counts
  /-- So do the relations of the stratum. -/
  count : s.predicates.Nodup →
    total (s.predicates.map db'.count) = total (s.predicates.map db.count) + total counts

section Rounds

variable {settings : Settings} {place : Nat} {s : Stratum} {p p' : Progress} {db db' : Database}

/-- A round adds to the database what it notes. -/
theorem RoundDone.gained (h : RoundDone settings place s p db p' db') :
    db.Gained p'.added.holds db' where
  holds := by rw [h.holds, h.added, Set.union_sdiff_cancel (s.subset_advance _)]
  fresh := by
    rw [h.added]
    exact fun _ hg => hg.2

theorem RoundDone.totalTuples_grown (h : RoundDone settings place s p db p' db')
    (hdb : db.WellFormed) : db'.totalTuples = db.totalTuples + p'.added.totalTuples := by
  rw [h.consistent.addedTo.wellFormed.totalTuples_eq_ncard]
  exact h.gained.totalTuples_eq hdb h.consistent.wellFormed

theorem RoundDone.count_grown (h : RoundDone settings place s p db p' db') (hdb : db.WellFormed)
    (hnames : s.predicates.Nodup) : total (s.predicates.map db'.count) =
      total (s.predicates.map db.count) + p'.added.totalTuples := by
  rw [h.consistent.addedTo.wellFormed.totalTuples_eq_ncard]
  exact h.gained.total_count_eq hdb h.consistent.wellFormed hnames h.consistent.isLocal

/-- **The rounds of a stratum** note one count each. -/
theorem RoundsDone.tally (h : RoundsDone settings place s p db p' db') (hdb : db.WellFormed) :
    ∃ counts, p'.stratum.newPerRound = p.stratum.newPerRound ++ counts ∧
      p'.stratum.rounds = p.stratum.rounds + counts.length ∧
      p'.stratum.predicates = p.stratum.predicates ∧
      p'.stratum.recursive = p.stratum.recursive ∧ s.Tally counts db db' := by
  induction h with
  | @last p p' db db' hdone hstop =>
    refine ⟨[p'.added.totalTuples], hdone.newPerRound, hdone.rounds, hdone.predicates,
      hdone.recursive, fun _ => ⟨_, rfl⟩, fun hrec => ⟨[], ?_, by simp⟩,
      hdone.totalTuples_grown hdb, hdone.count_grown hdb⟩
    rw [hrec, Bool.not_true, Bool.or_false, decide_eq_true_iff] at hstop
    rw [hstop]
    rfl
  | @step p q p' db mid db' hdone hgo _ ih =>
    obtain ⟨counts, hnew, hrounds, hpredicates, hrecursive, htally⟩ :=
      ih hdone.consistent.wellFormed
    rw [Bool.or_eq_false_iff, decide_eq_false_iff_not, Bool.not_eq_false'] at hgo
    refine ⟨q.added.totalTuples :: counts, ?_, ?_, hpredicates.trans hdone.predicates,
      hrecursive.trans hdone.recursive, fun hflat => ?_, fun hrec => ?_, ?_, fun hnames => ?_⟩
    · rw [hnew, hdone.newPerRound, List.append_assoc]
      rfl
    · rw [hrounds, hdone.rounds, List.length_cons]
      omega
    · rw [hgo.2] at hflat
      cases hflat
    · obtain ⟨front, rfl, hfront⟩ := htally.recursive hrec
      refine ⟨q.added.totalTuples :: front, rfl, fun k hk => ?_⟩
      rcases List.mem_cons.mp hk with rfl | hk
      · exact Nat.pos_of_ne_zero hgo.1
      · exact hfront k hk
    · rw [htally.totalTuples, hdone.totalTuples_grown hdb, total_cons, Nat.add_assoc]
    · rw [htally.count hnames, hdone.count_grown hdb hnames, total_cons, Nat.add_assoc]

end Rounds

/-- What the entry of a stratum says about the databases before and after a run. -/
structure StratumReport.Tells (x : StratumReport) (s : Stratum) (db db' : Database) : Prop where
  predicates : x.predicates = s.predicates
  recursive : x.recursive = s.recursive
  rounds : x.newPerRound.length = x.rounds
  /-- Without rules there is no round. -/
  nothing : s.rules = [] → x.newPerRound = []
  /-- Without recursion there is one. -/
  flat : s.rules ≠ [] → s.recursive = false → ∃ k, x.newPerRound = [k]
  /-- With recursion all rounds but the last add something. -/
  repeated : s.rules ≠ [] → s.recursive = true →
    ∃ front, x.newPerRound = front ++ [0] ∧ ∀ k ∈ front, 0 < k
  /-- The counts are the growth of the relations of the stratum. -/
  count : s.predicates.Nodup →
    total (s.predicates.map db'.count) = total (s.predicates.map db.count) + x.derived

section Strata

variable {settings : Settings} {place : Nat} {s : Stratum} {db db' : Database}

/-- **A stratum that is evaluated without an error** adds an entry that tells of it. -/
theorem Stratum.tells_of_evaluate (hdb : db.WellFormed) (hs : s.SupportedBy db)
    {report report' : Report} (h : s.evaluate settings place report db = .ok report' db') :
    ∃ x, report'.strata = report.strata ++ [x] ∧ x.Tells s db db' ∧
      db'.totalTuples = db.totalTuples + x.derived := by
  rw [Stratum.evaluate_def] at h
  split at h
  · next hempty =>
    obtain ⟨rfl, rfl⟩ := EStateM.Result.ok.inj h
    have hrules := List.isEmpty_iff.mp hempty
    exact ⟨s.begun, rfl, ⟨rfl, rfl, rfl, fun _ => rfl, fun hne => absurd hrules hne,
      fun hne => absurd hrules hne, fun _ => rfl⟩, rfl⟩
  · next hrules =>
    obtain ⟨q, mid, hrounds, h⟩ := bind_eq_ok.mp h
    obtain ⟨rfl, rfl⟩ := pure_eq_ok.mp h
    have hdone := roundsDone_of_evaluateRounds (.begin hdb hs report rfl) _ hrounds
    obtain ⟨counts, hnew, hlength, hpredicates, hrecursive, htally⟩ := hdone.tally hdb
    have hcounts : q.stratum.newPerRound = counts := hnew
    have hderived : q.stratum.derived = total counts := congrArg total hcounts
    refine ⟨q.stratum, congrArg (· ++ [q.stratum]) hdone.signature_eq.2,
      ⟨hpredicates, hrecursive, ?_, fun hempty => ?_, fun _ => ?_, fun _ => ?_, ?_⟩, ?_⟩
    · rw [hcounts, hlength]
      exact (Nat.zero_add _).symm
    · exact absurd (List.isEmpty_iff.mpr hempty) hrules
    · rw [hcounts]
      exact htally.flat
    · rw [hcounts]
      exact htally.recursive
    · rw [hderived]
      exact htally.count
    · rw [hderived]
      exact htally.totalTuples

end Strata

/-! ## All strata -/

/-- What is inserted over some names does not change the count of any other relation. -/
theorem Database.Grown.count_eq {names : List Predicate} {db db' : Database}
    (h : db.Grown {g | g.1 ∈ names} db') {name : Predicate} (hname : name ∉ names) :
    db'.count name = db.count name := by
  have hsame : db'.relations.find? name = db.relations.find? name :=
    h.find?_of_forall_ne fun g hg heq => hname (heq ▸ hg)
  rw [Database.count, Database.count, hsame]

/-- What an entry tells depends only on the counts of its stratum. -/
theorem StratumReport.Tells.congr {x : StratumReport} {s : Stratum} {db db' db₁ db₁' : Database}
    (h : x.Tells s db db') (hbefore : ∀ name ∈ s.predicates, db₁.count name = db.count name)
    (hafter : ∀ name ∈ s.predicates, db₁'.count name = db'.count name) : x.Tells s db₁ db₁' where
  predicates := h.predicates
  recursive := h.recursive
  rounds := h.rounds
  nothing := h.nothing
  flat := h.flat
  repeated := h.repeated
  count hnames := by
    rw [List.map_congr_left hbefore, List.map_congr_left hafter]
    exact h.count hnames

/-- Strata insert tuples over their own predicates. -/
theorem grown_predicates_of_evaluateFrom {settings : Settings} {place : Nat}
    {strata : List Stratum} {report report' : Report} {db db' : Database}
    (hready : Ready strata db)
    (h : evaluateFrom settings place strata report db = .ok report' db') :
    db.Grown {g | g.1 ∈ strata.flatMap Stratum.predicates} db' := by
  have hgrown := grown_reachedAtoms_evaluateFrom settings place strata report db
  rw [h] at hgrown
  refine hgrown.mono ?_
  rintro g ⟨i, s, hs, -, r, hr, hhead⟩
  have hmem := List.mem_of_getElem? hs
  refine List.mem_flatMap.mpr ⟨s, hmem, ?_⟩
  rw [← hhead]
  exact (hready.supported s hmem).defines r hr

/-- **Strata that are evaluated without an error**: every entry tells of the whole run, since no
stratum changes the relations of another one. -/
theorem tells_of_evaluateFrom {settings : Settings} {strata : List Stratum} {place : Nat}
    {report report' : Report} {db db' : Database} (hready : Ready strata db)
    (hnodup : (strata.flatMap Stratum.predicates).Nodup)
    (h : evaluateFrom settings place strata report db = .ok report' db') :
    ∃ xs, report'.strata = report.strata ++ xs ∧
      List.Forall₂ (fun s x => StratumReport.Tells x s db db') strata xs ∧
      db'.totalTuples = db.totalTuples + total (xs.map StratumReport.derived) := by
  induction strata generalizing place report db with
  | nil =>
    obtain ⟨rfl, rfl⟩ := pure_eq_ok.mp h
    exact ⟨[], (List.append_nil _).symm, .nil, rfl⟩
  | cons s strata ih =>
    obtain ⟨report₁, db₁, hfirst, hrest⟩ := bind_eq_ok.mp h
    have hready₁ := hready.tail (Stratum.grown_of_evaluate hready.wellFormed hready.head hfirst)
    rw [List.flatMap_cons, List.nodup_append'] at hnodup
    obtain ⟨-, hlater, hapart⟩ := hnodup
    obtain ⟨x, hx, htells, htotal⟩ := s.tells_of_evaluate hready.wellFormed hready.head hfirst
    obtain ⟨xs, hxs, hall, htotals⟩ := ih hready₁ hlater hrest
    have hbefore : db.Grown {g | g.1 ∈ s.predicates} db₁ := by
      have hgrown := grown_headAtoms_evaluate settings place s report db
      rw [hfirst] at hgrown
      refine hgrown.mono ?_
      rintro g ⟨r, hr, hhead⟩
      have hmem := hready.head.defines r hr
      rw [hhead] at hmem
      exact hmem
    have hafter := grown_predicates_of_evaluateFrom hready₁ hrest
    refine ⟨x :: xs, ?_, .cons ?_ ?_, ?_⟩
    · rw [hxs, hx, List.append_assoc]
      rfl
    · exact htells.congr (fun _ _ => rfl) fun name hname => hafter.count_eq (hapart hname)
    · refine (List.forall₂_iff_get.mpr ⟨hall.length_eq, fun i hi hi' => ?_⟩)
      have hmem : strata.get ⟨i, hi⟩ ∈ strata := List.get_mem strata ⟨i, hi⟩
      refine (hall.get hi hi').congr (fun name hname => ?_) fun _ _ => rfl
      refine (hbefore.count_eq fun hearlier => ?_).symm
      exact hapart hearlier (List.mem_flatMap.mpr ⟨_, hmem, hname⟩)
    · rw [htotals, htotal, List.map_cons, total_cons, Nat.add_assoc]

/-! ## Provenance -/

namespace Report

/-- The tuples that are noted with a derivation. -/
def notedAt (report : Report) (d : Derivation) : Interpretation :=
  {g | report.derivation? g.1 g.2 = some d}

/-- The count of a round of a stratum, both counted from 0; zero if there is no such round. -/
def countAt (report : Report) (i r : Nat) : Nat :=
  (report.strata[i]?.bind fun x => x.newPerRound[r]?).getD 0

/-- Only tuples that are there are noted, and with every derivation as many as the report counts. -/
structure Accounts (report : Report) (db : Database) : Prop where
  stated : ∀ d, report.notedAt d ⊆ db.holds
  counted : ∀ i r, (report.notedAt ⟨i, r + 1⟩).encard = report.countAt i r

/-- A count behind others is read at their number. -/
theorem getD_concat (counts : List Nat) (k r : Nat) : (counts ++ [k])[r]?.getD 0 =
    counts[r]?.getD 0 + if r = counts.length then k else 0 := by
  rcases Nat.lt_trichotomy r counts.length with hlt | rfl | hgt
  · rw [List.getElem?_append_left hlt, if_neg (Nat.ne_of_lt hlt), Nat.add_zero]
  · simp
  · have hnone : (counts ++ [k])[r]? = none := by
      refine List.getElem?_eq_none ?_
      rw [List.length_append, List.length_singleton]
      exact hgt
    rw [hnone, List.getElem?_eq_none (Nat.le_of_lt hgt), if_neg (Nat.ne_of_gt hgt)]
    rfl

theorem countAt_concat (report : Report) (x : StratumReport) (i r : Nat) :
    countAt { report with strata := report.strata ++ [x] } i r =
      if i = report.strata.length then x.newPerRound[r]?.getD 0 else report.countAt i r := by
  unfold countAt
  simp only [List.getElem?_append, List.getElem?_singleton]
  split
  · rw [if_neg (by omega)]
  · next hge =>
    by_cases hi : i = report.strata.length
    · simp [hi]
    · rw [if_neg (by omega), if_neg hi, List.getElem?_eq_none (by omega)]

/-- The entry of a stratum that has taken no round yet counts nothing. -/
theorem Accounts.begun {report : Report} {db : Database} (h : report.Accounts db)
    {x : StratumReport} (hx : x.newPerRound = []) :
    Accounts { report with strata := report.strata ++ [x] } db where
  stated := h.stated
  counted i r := by
    rw [countAt_concat, hx]
    split
    · next hi =>
      have hnone : report.countAt i r = 0 := by
        rw [countAt, List.getElem?_eq_none hi.ge]
        rfl
      exact (h.counted i r).trans (congrArg Nat.cast hnone)
    · exact h.counted i r

end Report

section Provenance

variable {settings : Settings} (hprov : settings.trackProvenance = true) {place : Nat} {s : Stratum}
  {p p' : Progress} {db db' : Database}

include hprov

/-- A round notes its moment for the tuples that it adds. -/
theorem RoundDone.notedAt_eq (h : RoundDone settings place s p db p' db')
    (hstated : ∀ d, p.report.notedAt d ⊆ db.holds) (d : Derivation) :
    p'.report.notedAt d = p.report.notedAt d ∪
      if d = ⟨place, p.stratum.rounds + 1⟩ then p'.added.holds else ∅ := by
  ext g
  have hlisting : (g.1, g.2) ∈ p'.added.listing ↔ g ∈ p'.added.holds :=
    h.consistent.addedTo.wellFormed.mem_listing
  show p'.report.derivation? g.1 g.2 = some d ↔ p.report.derivation? g.1 g.2 = some d ∨ _
  rw [h.derivation?]
  by_cases hg : g ∈ p'.added.holds
  · have hnone : p.report.derivation? g.1 g.2 = none := by
      refine Option.eq_none_iff_forall_ne_some.mpr fun d' hd' => ?_
      exact h.gained.fresh g hg (hstated d' hd')
    rw [hnone, if_pos ⟨hprov, hlisting.mpr hg⟩, Option.none_or, Option.some_inj, eq_comm]
    by_cases hd : d = ⟨place, p.stratum.rounds + 1⟩ <;> simp [hd, hg]
  · rw [if_neg fun hboth => hg (hlisting.mp hboth.2), Option.or_none]
    by_cases hd : d = ⟨place, p.stratum.rounds + 1⟩ <;> simp [hd, hg]

omit hprov in
/-- A round adds its count behind those of the rounds before it. -/
theorem RoundDone.countAt_eq (h : RoundDone settings place s p db p' db')
    (hplace : p.report.strata.length = place)
    (hrounds : p.stratum.newPerRound.length = p.stratum.rounds) (i r : Nat) :
    p'.closed.countAt i r = p.closed.countAt i r +
      if i = place ∧ r = p.stratum.rounds then p'.added.totalTuples else 0 := by
  rw [Progress.closed, Progress.closed, Report.countAt_concat, Report.countAt_concat, h.strata,
    hplace]
  by_cases hi : i = place
  · rw [if_pos hi, if_pos hi, h.newPerRound, Report.getD_concat, hrounds]
    simp only [hi, true_and]
  · rw [if_neg hi, if_neg hi, if_neg fun hboth => hi hboth.1, Nat.add_zero, Report.countAt,
      h.strata]
    rfl

/-- **A round keeps the accounts.** -/
theorem RoundDone.accounts (h : RoundDone settings place s p db p' db')
    (hplace : p.report.strata.length = place)
    (hrounds : p.stratum.newPerRound.length = p.stratum.rounds) (hp : p.closed.Accounts db) :
    p'.closed.Accounts db' := by
  have hstated : ∀ d, p.report.notedAt d ⊆ db.holds := hp.stated
  have hnoted : ∀ d, p'.closed.notedAt d = p.report.notedAt d ∪
      if d = ⟨place, p.stratum.rounds + 1⟩ then p'.added.holds else ∅ :=
    h.notedAt_eq hprov hstated
  refine ⟨fun d => ?_, fun i r => ?_⟩
  · rw [hnoted, h.gained.holds]
    refine Set.union_subset_union (hstated d) ?_
    split
    · exact subset_rfl
    · exact Set.empty_subset _
  · have hold : (p.report.notedAt ⟨i, r + 1⟩).encard = p.closed.countAt i r := hp.counted i r
    have hmoment : (⟨i, r + 1⟩ : Derivation) = ⟨place, p.stratum.rounds + 1⟩ ↔
        i = place ∧ r = p.stratum.rounds := by
      rw [Derivation.mk.injEq, Nat.add_right_cancel_iff]
    rw [hnoted, h.countAt_eq hplace hrounds]
    by_cases hhere : i = place ∧ r = p.stratum.rounds
    · have hdisjoint : Disjoint (p.report.notedAt ⟨i, r + 1⟩) p'.added.holds :=
        Set.disjoint_right.mpr fun g hg hnoted => h.gained.fresh g hg (hstated _ hnoted)
      have hwf := h.consistent.addedTo.wellFormed
      rw [if_pos (hmoment.mpr hhere), if_pos hhere, Set.encard_union_eq hdisjoint, hold,
        hwf.totalTuples_eq_ncard, ← hwf.finite_holds.cast_ncard_eq, Nat.cast_add]
    · rw [if_neg fun heq => hhere (hmoment.mp heq), if_neg hhere, Set.union_empty, hold,
        Nat.add_zero]

/-- **The rounds of a stratum keep the accounts.** -/
theorem RoundsDone.accounts (h : RoundsDone settings place s p db p' db')
    (hplace : p.report.strata.length = place)
    (hrounds : p.stratum.newPerRound.length = p.stratum.rounds) (hp : p.closed.Accounts db) :
    p'.closed.Accounts db' := by
  induction h with
  | last hdone _ => exact hdone.accounts hprov hplace hrounds hp
  | step hdone _ _ ih =>
    refine ih (hdone.strata ▸ hplace) ?_ (hdone.accounts hprov hplace hrounds hp)
    rw [hdone.newPerRound, hdone.rounds, List.length_append, hrounds, List.length_singleton]

theorem Stratum.accounts_of_evaluate (hdb : db.WellFormed) (hs : s.SupportedBy db)
    {report report' : Report} (hplace : report.strata.length = place)
    (haccounts : report.Accounts db)
    (h : s.evaluate settings place report db = .ok report' db') : report'.Accounts db' := by
  have hbegun : (Progress.mk report s.begun ∅).closed.Accounts db := haccounts.begun rfl
  rw [Stratum.evaluate_def] at h
  split at h
  · obtain ⟨rfl, rfl⟩ := EStateM.Result.ok.inj h
    exact hbegun
  · obtain ⟨q, mid, hrounds, h⟩ := bind_eq_ok.mp h
    obtain ⟨rfl, rfl⟩ := pure_eq_ok.mp h
    have hdone := roundsDone_of_evaluateRounds (.begin hdb hs report rfl) _ hrounds
    exact hdone.accounts hprov hplace rfl hbegun

/-- **An evaluation keeps the accounts.** -/
theorem accounts_of_evaluateFrom {strata : List Stratum} (hready : Ready strata db)
    {report report' : Report} (hplace : report.strata.length = place)
    (haccounts : report.Accounts db)
    (h : evaluateFrom settings place strata report db = .ok report' db') :
    report'.Accounts db' := by
  induction strata generalizing place report db with
  | nil =>
    obtain ⟨rfl, rfl⟩ := pure_eq_ok.mp h
    exact haccounts
  | cons s strata ih =>
    obtain ⟨report₁, db₁, hfirst, hrest⟩ := bind_eq_ok.mp h
    have hready₁ := hready.tail (Stratum.grown_of_evaluate hready.wellFormed hready.head hfirst)
    obtain ⟨x, hx, -⟩ := s.strata_of_evaluate hready.wellFormed hready.head hfirst
    refine ih hready₁ ?_ ?_ hrest
    · rw [hx, List.length_append, hplace, List.length_singleton]
    · exact s.accounts_of_evaluate hprov hready.wellFormed hready.head hplace haccounts hfirst

end Provenance

/-- Before the first stratum, nothing is noted and nothing is counted. -/
theorem Report.accounts_empty (db : Database) : Report.Accounts {} db where
  stated d g hg := by cases hg
  counted i r := by
    have hempty : Report.notedAt {} ⟨i, r + 1⟩ = ∅ :=
      Set.eq_empty_of_forall_notMem fun g hg => by cases hg
    rw [hempty, Set.encard_empty]
    rfl

/-! ## The whole report -/

/-- A recursive stratum has rules. -/
theorem Stratification.rules_ne_nil {p : Program} (hp : p.Valid) {s : Stratum}
    (hs : s ∈ (ofProgram p).strata) (hrec : s.recursive = true) : s.rules ≠ [] := by
  obtain ⟨a, ha⟩ := exists_mem_predicates hs
  obtain ⟨b, ⟨r, hr, hhead, -⟩, -⟩ :=
    Relation.TransGen.head'_iff.mp ((recursive_iff hp hs ha).mp hrec)
  refine List.ne_nil_of_mem ((mem_rules_iff hs).mpr ⟨hr, ?_⟩)
  rw [hhead]
  exact ha

/-- **The report accounts for every tuple.**  After a program has been evaluated without an error on
a database that was prepared for it, with any settings, the report has one entry for each stratum,
in order.  An entry has one count for each round: none for a stratum without rules, one for a
stratum with rules that is not recursive, and for a recursive stratum counts of which all but the
last are positive and the last is zero.  The counts of a stratum add up to the growth of the
relations of its predicates, and those of all strata to the growth of the database.  With
provenance, the number of tuples that are noted for a round of a stratum is the count of this
round; no tuple is noted for a round that has no count. -/
theorem report_accounts_for_every_tuple {p : Program} (hp : p.Reachable) {db₀ db₁ db₂ : Database}
    (hdb : db₀.Reachable) {n : Nat}
    (hmat : materialize p (Stratification.ofProgram p) db₀ = .ok n db₁) {settings : Settings}
    {report : Report}
    (heval : evaluate settings (Stratification.ofProgram p) db₁ = .ok report db₂) :
    report.strata.length = (Stratification.ofProgram p).strata.length ∧
    (∀ (i : Nat) s x, (Stratification.ofProgram p).strata[i]? = some s →
      report.strata[i]? = some x →
      x.predicates = s.predicates ∧ x.recursive = s.recursive ∧ x.newPerRound.length = x.rounds ∧
      (s.rules = [] → x.newPerRound = []) ∧
      (s.rules ≠ [] → s.recursive = false → ∃ k, x.newPerRound = [k]) ∧
      (s.recursive = true → ∃ front, x.newPerRound = front ++ [0] ∧ ∀ k ∈ front, 0 < k) ∧
      total (s.predicates.map db₂.count) = total (s.predicates.map db₁.count) + x.derived) ∧
    db₂.totalTuples = db₁.totalTuples + report.derived ∧
    (settings.trackProvenance = true → ∀ i r,
      {g : GroundAtom | report.derivation? g.1 g.2 = some ⟨i, r + 1⟩}.encard =
        ((report.strata[i]?.bind fun x => x.newPerRound[r]?).getD 0 : Nat)) := by
  have hready := (materialized_of_materialize hmat).ready hp.valid hdb.wellFormed
  have hnodup := Stratification.nodup_predicates hp.valid
  obtain ⟨xs, hxs, hall, htotal⟩ := tells_of_evaluateFrom hready hnodup heval
  rw [List.nil_append] at hxs
  subst hxs
  refine ⟨hall.length_eq.symm, fun i s x hs hx => ?_, htotal, fun hprov i r => ?_⟩
  · have htells : x.Tells s db₁ db₂ := by
      obtain ⟨hi, rfl⟩ := List.getElem?_eq_some_iff.mp hs
      obtain ⟨hi', rfl⟩ := List.getElem?_eq_some_iff.mp hx
      exact hall.get hi hi'
    have hmem := List.mem_of_getElem? hs
    refine ⟨htells.predicates, htells.recursive, htells.rounds, htells.nothing, htells.flat,
      fun hrec => htells.repeated (Stratification.rules_ne_nil hp.valid hmem hrec) hrec, ?_⟩
    exact htells.count ((List.nodup_flatMap.mp hnodup).1 s hmem)
  · have haccounts := accounts_of_evaluateFrom hprov hready rfl (Report.accounts_empty db₁) heval
    exact haccounts.counted i r

/-- The two rounds of `paths` that add paths add two of them and one, the database grows by three
tuples, and two tuples are noted for the first round. -/
theorem paths_accounted_for :
    ∃ report db, evaluate { trackProvenance := true } (Stratification.ofProgram paths)
        (finalState (materialize paths (Stratification.ofProgram paths) seeded)) = .ok report db ∧
      report.strata.map StratumReport.newPerRound = [[], [2, 1, 0]] ∧
      db.totalTuples =
        (finalState (materialize paths (Stratification.ofProgram paths) seeded)).totalTuples + 3 ∧
      {g : GroundAtom | report.derivation? g.1 g.2 = some ⟨1, 1⟩}.encard = 2 := by
  obtain ⟨n, hmat⟩ := exists_materialize_paths
  obtain ⟨report, heval⟩ := exists_evaluate_paths true
  have hcounts : (value? (evaluate { trackProvenance := true } (Stratification.ofProgram paths)
      (finalState (materialize paths (Stratification.ofProgram paths) seeded)))).map
        (fun report => report.strata.map StratumReport.newPerRound) = some [[], [2, 1, 0]] := by
    rw [Stratification.ofProgram_eq_counted]
    decide +kernel
  rw [heval] at hcounts
  have hnew : report.strata.map StratumReport.newPerRound = [[], [2, 1, 0]] :=
    Option.some.inj hcounts
  obtain ⟨-, -, htotal, hnoted⟩ := report_accounts_for_every_tuple (p := paths)
    (.extend _ .empty) reachable_seeded hmat heval
  have hderived : report.derived = 3 := by
    have hsum : report.derived =
        total ((report.strata.map StratumReport.newPerRound).map total) := by
      rw [List.map_map]
      rfl
    rw [hsum, hnew]
    rfl
  have hcount : (report.strata[1]?.bind fun x => x.newPerRound[0]?).getD 0 = 2 := by
    have hentry : (report.strata.map StratumReport.newPerRound)[1]? = some [2, 1, 0] := by
      rw [hnew]
      rfl
    rw [List.getElem?_map] at hentry
    obtain ⟨x, hx, hlist⟩ := Option.map_eq_some_iff.mp hentry
    rw [hx, Option.bind_some, hlist]
    rfl
  refine ⟨report, _, heval, hnew, ?_, ?_⟩
  · rw [htotal, hderived]
  · rw [hnoted rfl 1 0, hcount]
    rfl

end Datalog
