import Datalog.Proofs.Strategies
import Datalog.Proofs.StratumStart

/-!
# Linear programs: reading the latest tuples only is never more work

A stratum is *linear* if every rule has at most one body atom over its predicates.  In a later round
of such a stratum, the semi-naive strategy joins a recursive rule once, with that atom ranging over
the latest tuples, where the naive strategy joins it once over all tuples.  Both start the round
from the same atoms, and the latest tuples are among all, so the join reads at most as many
(`scanned_le`).  Over all rounds and strata the semi-naive evaluation reads at most as many tuples
as the naive one, and as many in a stratum that does not read itself
(`semiNaive_reads_at_most_naive`).

* `Stratum.Linear`: at most one local atom in each body.
* `Progress.ReadsLess`: the same rounds so far, and at most as many tuples read.

## Why linearity is needed

A rule with two local atoms is joined twice in a later round, once for each of them.  If the latest
tuples are most of all tuples, the two joins together read more than one join over all tuples.
-/

namespace Datalog

/-- Every rule has at most one body atom over the predicates of the stratum. -/
def Stratum.Linear (s : Stratum) : Prop := ∀ r ∈ s.rules, r.body.countP s.isLocal ≤ 1

/-! ## One rule -/

/-- There are as many places where a condition holds as there are entries that meet it. -/
theorem length_filter_places {α : Type} (p : α → Bool) (l : List α) :
    ((List.range l.length).filter fun i => l[i]?.any p).length = l.countP p := by
  induction l using List.reverseRecOn with
  | nil => rfl
  | append_singleton l a ih =>
    have hfront : (List.range l.length).filter (fun i => (l ++ [a])[i]?.any p) =
        (List.range l.length).filter fun i => l[i]?.any p :=
      List.filter_congr fun i hi => by rw [List.getElem?_append_left (List.mem_range.mp hi)]
    rw [List.length_append, List.length_singleton, List.range_succ, List.filter_append, hfront,
      List.length_append, ih, List.countP_append]
    cases hp : p a <;> simp [hp]

namespace Stratum

variable {settings settings' : Settings} {s : Stratum} {r : Rule} {added added' db e : Database}

theorem length_localPositions (s : Stratum) (r : Rule) :
    (s.localPositions r).length = r.body.countP s.isLocal :=
  length_filter_places s.isLocal r.body

/-- A rule that does not read the stratum is joined in the first round only. -/
theorem fetchedFor_of_countP_eq_zero (settings : Settings) (hnone : r.body.countP s.isLocal = 0)
    (round : Nat) (added db : Database) : s.fetchedFor settings round added db r =
      if round = 1 then scanned db r.overStored [∅] else 0 := by
  have hpositions : s.localPositions r = [] := by
    rw [← List.length_eq_zero_iff, length_localPositions, hnone]
  have hrule : s.isRecursiveRule r = false := by
    rw [isRecursiveRule, List.any_eq_false]
    exact List.countP_eq_zero.mp hnone
  unfold fetchedFor
  rw [hpositions, hrule]
  cases settings.strategy <;> rfl

/-- **One rule in one round.**  Over the same tuples, the semi-naive strategy reads at most as many
for a linear rule. -/
theorem fetchedFor_le (hsemi : settings.strategy = .semiNaive)
    (hnaive : settings'.strategy = .naive) (hlinear : r.body.countP s.isLocal ≤ 1) (round : Nat)
    (hstored : ∀ b ∈ r.body, db.SameTuples e b.predicate)
    (hadded : ∀ b ∈ r.body, (added.tuples b.predicate).Subperm (e.tuples b.predicate)) :
    s.fetchedFor settings round added db r ≤ s.fetchedFor settings' round added' e r := by
  have hwhole : scanned db r.overStored [∅] = scanned e r.overStored [∅] :=
    scanned_congr (forall₂_overStored hstored) _
  rcases Nat.le_one_iff_eq_zero_or_eq_one.mp hlinear with hnone | hone
  · rw [fetchedFor_of_countP_eq_zero settings hnone, fetchedFor_of_countP_eq_zero settings' hnone,
      hwhole]
  · obtain ⟨i, hi⟩ : ∃ i, s.localPositions r = [i] := by
      rw [← List.length_eq_one_iff, length_localPositions, hone]
    have hrule : s.isRecursiveRule r = true := by
      rw [isRecursiveRule, List.any_eq_true]
      exact List.countP_pos_iff.mp (hone ▸ Nat.one_pos)
    unfold fetchedFor
    rw [hsemi, hnaive, hi, hrule]
    split
    · exact hwhole.le
    · rw [Rule.fetchedAgain, List.map_singleton, total_cons, total_nil, Nat.add_zero]
      exact scanned_le (forall₂_overRecent_overStored hstored hadded i) (.refl _)

end Stratum

/-! ## All rounds -/

/-- Two evaluations of a stratum have taken the same rounds so far; the first has read at most as
many tuples, and as many if the stratum does not read itself. -/
structure Progress.ReadsLess (s : Stratum) (p q : Progress) (db e : Database) : Prop where
  rounds : p.stratum.rounds = q.stratum.rounds
  added : p.added.holds = q.added.holds
  holds : db.holds = e.holds
  scanned_le : p.stratum.tuplesScanned ≤ q.stratum.tuplesScanned
  scanned_eq : s.recursive = false → p.stratum.tuplesScanned = q.stratum.tuplesScanned

section Rounds

variable {settings settings' : Settings} (hsemi : settings.strategy = .semiNaive)
  (hnaive : settings'.strategy = .naive) {place limit : Nat} {s : Stratum} (hlinear : s.Linear)
  (hflag : s.Flagged)

include hsemi hnaive hlinear hflag

/-- What the two strategies read in one round, all rules together. -/
theorem Progress.ReadsLess.fetched {p q : Progress} {db e : Database} (hp : p.Consistent s db)
    (hq : q.Consistent s e) (h : p.ReadsLess s q db e) (round : Nat) :
    let reads := total (s.rules.map (s.fetchedFor settings round p.added db))
    let reads' := total (s.rules.map (s.fetchedFor settings' round q.added e))
    reads ≤ reads' ∧ (s.recursive = false → reads = reads') := by
  intro reads reads'
  have hsame : ∀ name, db.SameTuples e name := fun name =>
    hp.wellFormed.sameTuples hq.wellFormed fun t => by rw [h.holds]
  have hlatest : ∀ name, (p.added.tuples name).Subperm (e.tuples name) := by
    intro name
    refine (hp.addedTo.wellFormed.nodup_tuples name).subperm fun t ht => ?_
    have hmem : (name, t) ∈ db.holds := hp.subset ht
    rw [h.holds] at hmem
    exact hmem
  constructor
  · exact total_map_le fun r hr => Stratum.fetchedFor_le hsemi hnaive (hlinear r hr) round
      (fun b _ => hsame b.predicate) fun b _ => hlatest b.predicate
  · intro hrec
    refine congrArg total (List.map_congr_left fun r hr => ?_)
    have hnone : r.body.countP s.isLocal = 0 :=
      List.countP_eq_zero.mpr fun b hb => by simpa [Stratum.isLocal] using hflag hrec r hr b hb
    rw [Stratum.fetchedFor_of_countP_eq_zero settings hnone,
      Stratum.fetchedFor_of_countP_eq_zero settings' hnone,
      scanned_congr (forall₂_overStored fun b _ => hsame b.predicate) _]

/-- **A round keeps the semi-naive evaluation ahead.** -/
theorem Progress.ReadsLess.round {p q p' q' : Progress} {db e db' e' : Database}
    (hp : p.Consistent s db) (hq : q.Consistent s e) (h : p.ReadsLess s q db e)
    (hround : evaluateRound settings place s p db = .ok p' db')
    (hround' : evaluateRound settings' place s q e = .ok q' e')
    (hdone : RoundDone settings place s p db p' db')
    (hdone' : RoundDone settings' place s q e q' e') : p'.ReadsLess s q' db' e' := by
  obtain ⟨hle, heq⟩ := h.fetched hsemi hnaive hlinear hflag hp hq (q.stratum.rounds + 1)
  have hscanned := tuplesScanned_of_evaluateRound hp hround
  have hscanned' := tuplesScanned_of_evaluateRound hq hround'
  rw [h.rounds] at hscanned
  refine ⟨?_, ?_, ?_, ?_, fun hrec => ?_⟩
  · rw [hdone.rounds, hdone'.rounds, h.rounds]
  · rw [hdone.added, hdone'.added, h.holds]
  · rw [hdone.holds, hdone'.holds, h.holds]
  · rw [hscanned, hscanned']
    exact Nat.add_le_add h.scanned_le hle
  · rw [hscanned, hscanned', h.scanned_eq hrec, heq hrec]

/-- **All rounds.**  If the semi-naive rounds come to an end, so do the naive ones. -/
theorem evaluateRounds_readsLess {p q p' : Progress} {db e db' : Database} (hp : p.Consistent s db)
    (hq : q.Consistent s e) (h : p.ReadsLess s q db e) (n : Nat)
    (hrun : evaluateRounds settings place limit s n p db = .ok p' db') :
    ∃ q' e', evaluateRounds settings' place limit s n q e = .ok q' e' ∧
      p'.ReadsLess s q' db' e' := by
  obtain ⟨p₁, db₁, hround, hdone⟩ := evaluateRound_eq settings place hp
  obtain ⟨q₁, e₁, hround', hdone'⟩ := evaluateRound_eq settings' place hq
  have h₁ := h.round hsemi hnaive hlinear hflag hp hq hround hround' hdone hdone'
  have htotal : p₁.added.totalTuples = q₁.added.totalTuples :=
    hdone.consistent.addedTo.wellFormed.totalTuples_congr hdone'.consistent.addedTo.wellFormed
      h₁.added
  rw [evaluateRounds_of_round hround, htotal] at hrun
  rw [evaluateRounds_of_round hround']
  split at hrun
  · next hstop =>
    obtain ⟨rfl, rfl⟩ := EStateM.Result.ok.inj hrun
    exact ⟨q₁, e₁, if_pos hstop, h₁⟩
  · next hgo =>
    rw [if_neg hgo]
    cases n with
    | zero => cases hrun
    | succ n => exact evaluateRounds_readsLess hdone.consistent hdone'.consistent h₁ n hrun
termination_by n

end Rounds

/-! ## All strata -/

/-- The first entry has read at most as many tuples as the second, and as many if the stratum does
not read itself. -/
structure StratumReport.ReadsLess (x y : StratumReport) : Prop where
  scanned_le : x.tuplesScanned ≤ y.tuplesScanned
  scanned_eq : x.recursive = false → x.tuplesScanned = y.tuplesScanned

section Strata

variable {settings settings' : Settings} (hsemi : settings.strategy = .semiNaive)
  (hnaive : settings'.strategy = .naive) (hmax : settings.maxRounds = settings'.maxRounds)

include hsemi hnaive hmax

/-- **One stratum.** -/
theorem Stratum.evaluate_readsLess {place : Nat} {s : Stratum} (hlinear : s.Linear)
    (hflag : s.Flagged) {db e db' : Database} (hdb : db.WellFormed) (he : e.WellFormed)
    (hs : s.SupportedBy db) (hs' : s.SupportedBy e) (h : db.holds = e.holds)
    {report report₁ : Report} (report' : Report)
    (hrun : s.evaluate settings place report db = .ok report₁ db') :
    ∃ report₂ e' x y, s.evaluate settings' place report' e = .ok report₂ e' ∧
      db'.holds = e'.holds ∧ report₁.strata = report.strata ++ [x] ∧
      report₂.strata = report'.strata ++ [y] ∧ x.ReadsLess y := by
  have hallowance : s.allowance settings db = s.allowance settings' e := by
    unfold allowance
    rw [hmax, s.capacity_congr hdb he h]
  rw [Stratum.evaluate_def, Storage.contents_database, hallowance] at hrun
  rw [Stratum.evaluate_def, Storage.contents_database]
  split at hrun
  · next hempty =>
    obtain ⟨rfl, rfl⟩ := EStateM.Result.ok.inj hrun
    exact ⟨_, e, s.begun, s.begun, if_pos hempty, h, rfl, rfl, le_rfl, fun _ => rfl⟩
  · next hrules =>
    obtain ⟨p, mid, hrounds, hrun⟩ := bind_eq_ok.mp hrun
    obtain ⟨rfl, rfl⟩ := pure_eq_ok.mp hrun
    have hp : Progress.Consistent s ⟨report, s.begun, ∅⟩ db := .begin hdb hs report rfl
    have hq : Progress.Consistent s ⟨report', s.begun, ∅⟩ e := .begin he hs' report' rfl
    obtain ⟨q, e', hrounds', hless⟩ := evaluateRounds_readsLess hsemi hnaive hlinear hflag hp hq
      ⟨rfl, rfl, h, le_rfl, fun _ => rfl⟩ _ hrounds
    obtain ⟨hsignature, hstrata⟩ := (roundsDone_of_evaluateRounds hp _ hrounds).signature_eq
    obtain ⟨-, hstrata'⟩ := (roundsDone_of_evaluateRounds hq _ hrounds').signature_eq
    have hrec : p.stratum.recursive = s.recursive := (Prod.mk.inj hsignature).2
    refine ⟨q.closed, e', p.stratum, q.stratum, ?_, hless.holds,
      congrArg (· ++ [p.stratum]) hstrata, congrArg (· ++ [q.stratum]) hstrata',
      hless.scanned_le, fun hnot => hless.scanned_eq (hrec.symm.trans hnot)⟩
    rw [if_neg hrules, bind_of_eq_ok _ hrounds']
    rfl

/-- **All strata**, one entry of the report after the other. -/
theorem evaluateFrom_readsLess {strata : List Stratum} (hlinear : ∀ s ∈ strata, s.Linear)
    (hflag : ∀ s ∈ strata, s.Flagged) {place : Nat} {db e db' : Database} (hready : Ready strata db)
    (hready' : Ready strata e) (h : db.holds = e.holds) {report report₁ : Report} (report' : Report)
    (hrun : evaluateFrom settings place strata report db = .ok report₁ db') :
    ∃ report₂ e' xs ys, evaluateFrom settings' place strata report' e = .ok report₂ e' ∧
      report₁.strata = report.strata ++ xs ∧ report₂.strata = report'.strata ++ ys ∧
      List.Forall₂ StratumReport.ReadsLess xs ys := by
  induction strata generalizing place db e report report' with
  | nil =>
    obtain ⟨rfl, -⟩ := pure_eq_ok.mp hrun
    exact ⟨report', e, [], [], rfl, (List.append_nil _).symm, (List.append_nil _).symm, .nil⟩
  | cons s strata ih =>
    obtain ⟨report₃, db₁, hfirst, hrest⟩ := bind_eq_ok.mp hrun
    obtain ⟨report₄, e₁, x, y, hfirst', hsame, hx, hy, hxy⟩ :=
      s.evaluate_readsLess hsemi hnaive hmax (hlinear s List.mem_cons_self)
        (hflag s List.mem_cons_self) hready.wellFormed hready'.wellFormed hready.head hready'.head h
        report' hfirst
    have hready₁ := hready.tail (Stratum.grown_of_evaluate hready.wellFormed hready.head hfirst)
    have hready₁' := hready'.tail
      (Stratum.grown_of_evaluate hready'.wellFormed hready'.head hfirst')
    obtain ⟨report₂, e', xs, ys, hrest', hxs, hys, hall⟩ :=
      ih (fun t ht => hlinear t (List.mem_cons_of_mem s ht))
        (fun t ht => hflag t (List.mem_cons_of_mem s ht)) hready₁ hready₁' hsame report₄ hrest
    refine ⟨report₂, e', x :: xs, y :: ys, ?_, ?_, ?_, .cons hxy hall⟩
    · rw [evaluateFrom, bind_of_eq_ok _ hfirst']
      exact hrest'
    · rw [hxs, hx, List.append_assoc]
      rfl
    · rw [hys, hy, List.append_assoc]
      rfl

end Strata

/-- **Semi-naive evaluation never reads more than naive evaluation on linear programs.**  Let every
stratum of a program be linear.  If the semi-naive evaluation of a database that has been prepared
for the program succeeds, then so does the naive one, with the same limit and from the same
database; and in every stratum it has read at least as many tuples, and as many if the stratum is
not recursive. -/
theorem semiNaive_reads_at_most_naive {p : Program} (hp : p.Reachable) {db₀ db₁ db₂ : Database}
    (hdb : db₀.Reachable) {n : Nat}
    (hmat : materialize p (Stratification.ofProgram p) db₀ = .ok n db₁)
    (hlinear : ∀ s ∈ (Stratification.ofProgram p).strata, s.Linear) {settings : Settings}
    {report : Report}
    (heval : evaluate { settings with strategy := .semiNaive } (Stratification.ofProgram p) db₁ =
      .ok report db₂) :
    ∃ report' db₂',
      evaluate { settings with strategy := .naive } (Stratification.ofProgram p) db₁ =
        .ok report' db₂' ∧
      report.strata.length = (Stratification.ofProgram p).strata.length ∧
      report'.strata.length = (Stratification.ofProgram p).strata.length ∧
      ∀ (i : Nat) s x y, (Stratification.ofProgram p).strata[i]? = some s →
        report.strata[i]? = some x → report'.strata[i]? = some y →
        x.tuplesScanned ≤ y.tuplesScanned ∧
          (s.recursive = false → x.tuplesScanned = y.tuplesScanned) := by
  have hready := (materialized_of_materialize hmat).ready hp.valid hdb.wellFormed
  have hsemi : ({ settings with strategy := .semiNaive } : Settings).strategy = .semiNaive := rfl
  have hnaive : ({ settings with strategy := .naive } : Settings).strategy = .naive := rfl
  obtain ⟨report', db₂', xs, ys, heval', hxs, hys, hall⟩ :=
    evaluateFrom_readsLess hsemi hnaive rfl hlinear (Stratification.layered hp.valid).flagged
      hready hready rfl {} heval
  have hsignatures := signatures_of_evaluateFrom hready heval
  have hlength : report.strata.length = (Stratification.ofProgram p).strata.length := by
    have hmap := congrArg List.length hsignatures
    rw [List.length_map, List.length_map] at hmap
    exact hmap
  rw [List.nil_append] at hxs hys
  rw [← hxs, ← hys] at hall
  refine ⟨report', db₂', heval', hlength, hall.length_eq.symm.trans hlength, ?_⟩
  intro i s x y hs hx hy
  have hless : x.ReadsLess y := by
    obtain ⟨hi, rfl⟩ := List.getElem?_eq_some_iff.mp hx
    obtain ⟨hi', rfl⟩ := List.getElem?_eq_some_iff.mp hy
    exact hall.get hi hi'
  refine ⟨hless.scanned_le, fun hrec => hless.scanned_eq ?_⟩
  have hsignature : some x.signature = some s.signature := by
    have hmap := congrArg (·[i]?) hsignatures
    simp only [List.getElem?_map, hx, hs, Option.map_some] at hmap
    exact hmap
  exact (Prod.mk.inj (Option.some.inj hsignature)).2.trans hrec

/-- Paths along edges, one edge at a time. -/
def chains : Program :=
  finalState (Program.extend
    [.fact ⟨"edge", [.const "a", .const "b"]⟩,
      .rule ⟨⟨"path", [.var "X", .var "Y"]⟩, [⟨"edge", [.var "X", .var "Y"]⟩]⟩,
      .rule ⟨⟨"path", [.var "X", .var "Z"]⟩,
        [⟨"path", [.var "X", .var "Y"]⟩, ⟨"edge", [.var "Y", .var "Z"]⟩]⟩] {})

/-- Paths along edges, prepared for their evaluation. -/
def chained : Database :=
  finalState (materialize chains (Stratification.ofProgram chains) seeded)

theorem linear_chains : ∀ s ∈ (Stratification.ofProgram chains).strata, s.Linear := by
  have hall : ((Stratification.ofProgram chains).strata.all fun s =>
      s.rules.all fun r => r.body.countP s.isLocal ≤ 1) = true := by
    rw [Stratification.ofProgram_eq_counted]
    decide +kernel
  intro s hs r hr
  exact of_decide_eq_true (List.all_eq_true.mp (List.all_eq_true.mp hall s hs) r hr)

/-- Over two edges, the semi-naive strategy reads 6 tuples for the paths, and the naive one 9. -/
theorem reads_of_chains :
    ∃ report db report' db' x y,
      evaluate { strategy := .semiNaive } (Stratification.ofProgram chains) chained =
        .ok report db ∧
      evaluate { strategy := .naive } (Stratification.ofProgram chains) chained =
        .ok report' db' ∧
      report.strata[1]? = some x ∧ report'.strata[1]? = some y ∧
      x.tuplesScanned ≤ y.tuplesScanned ∧ x.tuplesScanned = 6 ∧ y.tuplesScanned = 9 := by
  obtain ⟨n, hmat⟩ : ∃ n, materialize chains (Stratification.ofProgram chains) seeded =
      .ok n chained := by
    refine eq_ok_of_succeeds ?_
    rw [Stratification.ofProgram_eq_counted]
    decide +kernel
  obtain ⟨report, heval⟩ := eq_ok_of_succeeds
    (r := evaluate { ({} : Settings) with strategy := .semiNaive }
      (Stratification.ofProgram chains) chained)
    (by rw [chained, Stratification.ofProgram_eq_counted]; decide +kernel)
  obtain ⟨report', db, heval', hlength, -, hreads⟩ := semiNaive_reads_at_most_naive (p := chains)
    (.extend _ .empty) reachable_seeded hmat linear_chains heval
  have hentry : (value? (evaluate { strategy := .semiNaive } (Stratification.ofProgram chains)
      chained)).map (fun report => report.strata[1]?.map StratumReport.tuplesScanned) =
        some (some 6) := by
    rw [chained, Stratification.ofProgram_eq_counted]
    decide +kernel
  have hentry' : (value? (evaluate { strategy := .naive } (Stratification.ofProgram chains)
      chained)).map (fun report => report.strata[1]?.map StratumReport.tuplesScanned) =
        some (some 9) := by
    rw [chained, Stratification.ofProgram_eq_counted]
    decide +kernel
  rw [heval] at hentry
  rw [heval'] at hentry'
  obtain ⟨x, hx, hsix⟩ := Option.map_eq_some_iff.mp (Option.some.inj hentry)
  obtain ⟨y, hy, hnine⟩ := Option.map_eq_some_iff.mp (Option.some.inj hentry')
  obtain ⟨hplace, -⟩ := List.getElem?_eq_some_iff.mp hx
  rw [hlength] at hplace
  obtain ⟨hle, -⟩ := hreads 1 _ x y (List.getElem?_eq_getElem hplace) hx hy
  exact ⟨report, _, report', db, x, y, heval, heval', hx, hy, hle, hsix, hnine⟩

end Datalog
