import Datalog.Proofs.Preparation
import Datalog.Proofs.StratumStart

/-!
# The order of clauses and bodies does not matter

The clauses of a program are put into another order, and the body atoms of its rules as well.  Then
the predicates are numbered differently, the dependency graph is searched differently, the strata
come in another order, joins start from other atoms, and tuples arrive in another order.  And yet
the two programs agree in all that an evaluation tells: whether it succeeds, which atoms there are
in the end, and for each stratum how many rounds there are and in which of them a tuple is added
(`order_of_clauses_does_not_matter`).  Of the reported numbers only that of the tuples fetched
depends on the order of the bodies; on the order of the clauses it does not depend either.

* `Program.Completes`: preparing a database and evaluating a program on it succeeds.
* `Report.Matches`: the same strata, and for each the same rounds, counts and derivations.

## Why the strata can be compared one by one

The two evaluations have hardly a state in common: between strata, one has done what the other has
still to do.  But what matters to a stratum when it starts is the same for both (`agreeOn_start`),
and from there on matching strata take the same rounds (`evaluateRounds_match`).
-/

namespace Datalog

open Interpretation (AgreeOn)

/-- Preparing a database for a program and evaluating the program on it succeeds. -/
def Program.Completes (p : Program) (settings : Settings) (db : Database) (report : Report)
    (db' : Database) : Prop :=
  ∃ n mid, materialize p (Stratification.ofProgram p) db = .ok n mid ∧
    evaluate settings (Stratification.ofProgram p) mid = .ok report db'

/-- The same sets of predicates with the same flags; for the same set of predicates, the same rounds
with as many new tuples in each, and as many tuples fetched, provided that no body has changed; and
for every tuple the same round of derivation. -/
structure Report.Matches (sameBodies : Prop) (a b : Report) : Prop where
  signatures : (a.strata.map StratumReport.signature).Perm (b.strata.map StratumReport.signature)
  strata : ∀ x ∈ a.strata, ∀ y ∈ b.strata, (∀ name, name ∈ x.predicates ↔ name ∈ y.predicates) →
    x.Matches sameBodies y
  round : ∀ name t, (a.derivation? name t).map Derivation.round =
    (b.derivation? name t).map Derivation.round

namespace Program.SameClauses

variable {p p' : Program} (h : p.SameClauses p')

include h

theorem leastModel_eq (base : Interpretation) :
    leastModel p.clauses base = leastModel p'.clauses base := by
  unfold leastModel
  rw [h.models_eq]

/-- Matching strata start from the same atoms. -/
theorem start_eq {s s' : Stratum} (hmatch : s.Matches s') (base : Interpretation) :
    p.start base s = p'.start base s' := by
  ext g
  unfold Program.start
  simp only [Set.mem_ofPred_eq, hmatch.predicates g.1, h.factAtoms_eq, h.leastModel_eq]

theorem exists_materialize {db : Database}
    (hmat : ∃ n db', materialize p (Stratification.ofProgram p) db = .ok n db') :
    ∃ n db', materialize p' (Stratification.ofProgram p') db = .ok n db' := by
  rw [exists_materialize_iff h.left] at hmat
  rw [exists_materialize_iff h.right]
  intro name k arity hk harity
  rw [← h.arity?_eq] at harity
  exact hmat name k arity hk harity

section Prepared

variable {settings : Settings} {db₀ db₁ e₁ : Database} (hdb : db₀.WellFormed)
  (hmat : Materialized p ((Stratification.ofProgram p).strata.flatMap Stratum.predicates) db₀ db₁)
  (hmat' : Materialized p' ((Stratification.ofProgram p').strata.flatMap Stratum.predicates) db₀ e₁)

include hdb hmat hmat'

/-- **Matching strata start alike**, wherever they stand. -/
theorem agreeOn_starts {s s' : Stratum} (hmatch : s.Matches s') {i j : Nat}
    {report report' : Report} {db e : Database}
    (hs : (Stratification.ofProgram p).strata[i]? = some s)
    (hrun : evaluateFrom settings 0 ((Stratification.ofProgram p).strata.take i) {} db₁ =
      .ok report db)
    (hs' : (Stratification.ofProgram p').strata[j]? = some s')
    (hrun' : evaluateFrom settings 0 ((Stratification.ofProgram p').strata.take j) {} e₁ =
      .ok report' e) : AgreeOn s.Reads db.holds e.holds := by
  intro g hg
  have hleft := agreeOn_start h.left hdb hmat hs hrun g hg
  have hright := agreeOn_start h.right hdb hmat' hs' hrun' g (hmatch.reads_of_reads hg)
  rw [h.start_eq hmatch] at hleft
  exact hleft.trans hright.symm

/-- Every stratum of one program can be evaluated where the strata before it have been, if the other
program can be evaluated. -/
theorem exists_evaluate_stratum {report : Report} {db₂ : Database}
    (heval : evaluate settings (Stratification.ofProgram p) db₁ = .ok report db₂) {i : Nat}
    {s' : Stratum} {report' : Report} {e : Database}
    (hs' : (Stratification.ofProgram p').strata[i]? = some s')
    (hrun' : evaluateFrom settings 0 ((Stratification.ofProgram p').strata.take i) {} e₁ =
      .ok report' e) (place : Nat) :
    ∃ report₂ e₂, s'.evaluate settings place report' e = .ok report₂ e₂ := by
  have hmem' := List.mem_of_getElem? hs'
  obtain ⟨s, hs, hmatch⟩ := Stratification.exists_matches h.symm hmem'
  obtain ⟨j, x, start, mid, hreported⟩ :=
    exists_reported_of_mem (hmat.ready h.left hdb) heval hs
  obtain ⟨report₁, db, hrun, -⟩ := hreported.run
  have hready := ready_front h.left hdb hmat (List.take_append_drop j _).symm hreported.before
  have hready' := ready_front h.right hdb hmat' (List.take_append_drop i _).symm hrun'
  exact Stratum.exists_evaluate_of_matches hmatch.symm hready.wellFormed hready'.wellFormed
    (hready.supported s hs) (hready'.supported s' hmem')
    (h.agreeOn_starts hdb hmat hmat' hmatch.symm hreported.stratum hreported.before hs' hrun') hrun

/-- **If one program can be evaluated, so can the other.** -/
theorem exists_evaluate {report : Report} {db₂ : Database}
    (heval : evaluate settings (Stratification.ofProgram p) db₁ = .ok report db₂) :
    ∃ report' e₂, evaluate settings (Stratification.ofProgram p') e₁ = .ok report' e₂ := by
  -- The induction is on the strata of the other program, in their own order.
  have hfront : ∀ i ≤ (Stratification.ofProgram p').strata.length, ∃ report' e,
      evaluateFrom settings 0 ((Stratification.ofProgram p').strata.take i) {} e₁ =
        .ok report' e := by
    intro i
    induction i with
    | zero => exact fun _ => ⟨{}, e₁, rfl⟩
    | succ i ih =>
      intro hi
      obtain ⟨report', e, hrun'⟩ := ih (Nat.le_of_succ_le hi)
      obtain ⟨report₂, e₂, hnext⟩ := h.exists_evaluate_stratum hdb hmat hmat' heval
        (List.getElem?_eq_getElem hi) hrun'
        (0 + ((Stratification.ofProgram p').strata.take i).length)
      rw [← List.take_append_getElem hi, evaluateFrom_concat]
      exact ⟨report₂, e₂, bind_eq_ok.mpr ⟨report', e, hrun', hnext⟩⟩
  obtain ⟨report', e₂, hrun⟩ := hfront _ (le_refl _)
  rw [List.take_length] at hrun
  exact ⟨report', e₂, hrun⟩

/-! ## What both evaluations tell -/

/-- **The entries for the same predicates match.** -/
theorem entries_match {report report' : Report} {db₂ e₂ : Database}
    (heval : evaluate settings (Stratification.ofProgram p) db₁ = .ok report db₂)
    (heval' : evaluate settings (Stratification.ofProgram p') e₁ = .ok report' e₂)
    {x y : StratumReport} (hx : x ∈ report.strata) (hy : y ∈ report'.strata)
    (hnames : ∀ name, name ∈ x.predicates ↔ name ∈ y.predicates) :
    x.Matches (p.clauses.Perm p'.clauses) y := by
  obtain ⟨i, s, start, mid, hreported⟩ :=
    exists_reported_of_entry (hmat.ready h.left hdb) heval hx
  obtain ⟨j, s', start', mid', hreported'⟩ :=
    exists_reported_of_entry (hmat'.ready h.right hdb) heval' hy
  have hs := List.mem_of_getElem? hreported.stratum
  have hs' := List.mem_of_getElem? hreported'.stratum
  obtain ⟨a, ha⟩ := Stratification.exists_mem_predicates hs
  have ha' : a ∈ s'.predicates := by
    rw [← hreported'.mem_predicates_iff, ← hnames, hreported.mem_predicates_iff]
    exact ha
  have hmatch := Stratification.matches_of_mem h hs hs' ha ha'
  obtain ⟨report₁, db, hrun, hadded⟩ := hreported.run
  obtain ⟨report₂, e, hrun', hadded'⟩ := hreported'.run
  have hready := ready_front h.left hdb hmat (List.take_append_drop i _).symm hreported.before
  have hready' := ready_front h.right hdb hmat' (List.take_append_drop j _).symm hreported'.before
  obtain ⟨x', y', hx', hy', hsame⟩ := Stratum.reports_match hmatch hready.wellFormed
    hready'.wellFormed (hready.supported s hs) (hready'.supported s' hs')
    (h.agreeOn_starts hdb hmat hmat' hmatch hreported.stratum hreported.before
      hreported'.stratum hreported'.before) hrun hrun'
  obtain rfl : x = x' := List.singleton_inj.mp (List.append_cancel_left (hadded.symm.trans hx'))
  obtain rfl : y = y' := List.singleton_inj.mp (List.append_cancel_left (hadded'.symm.trans hy'))
  exact ⟨hsame.rounds, hsame.newPerRound, fun hperm =>
    hsame.tuplesScanned (Stratification.perm_rules_of_perm hperm hs hs' hmatch)⟩

theorem perm_signatures {report report' : Report} {db₂ e₂ : Database}
    (heval : evaluate settings (Stratification.ofProgram p) db₁ = .ok report db₂)
    (heval' : evaluate settings (Stratification.ofProgram p') e₁ = .ok report' e₂) :
    (report.strata.map StratumReport.signature).Perm
      (report'.strata.map StratumReport.signature) := by
  rw [signatures_of_evaluateFrom (hmat.ready h.left hdb) heval,
    signatures_of_evaluateFrom (hmat'.ready h.right hdb) heval']
  exact Stratification.perm_signatures h

/-- **A tuple is added in the same round.** -/
theorem round_eq {report report' : Report} {db₂ e₂ : Database}
    (heval : evaluate settings (Stratification.ofProgram p) db₁ = .ok report db₂)
    (heval' : evaluate settings (Stratification.ofProgram p') e₁ = .ok report' e₂)
    (hholds : db₂.holds = e₂.holds) (name : Predicate) (t : Tuple) :
    (report.derivation? name t).map Derivation.round =
      (report'.derivation? name t).map Derivation.round := by
  have hready := hmat.ready h.left hdb
  have hready' := hmat'.ready h.right hdb
  cases hprov : settings.trackProvenance with
  | false =>
    unfold Report.derivation?
    rw [derivations_of_evaluateFrom hprov hready heval,
      derivations_of_evaluateFrom hprov hready' heval']
  | true =>
    obtain ⟨-, hnew, hold⟩ := dated_of_evaluateFrom hprov hready heval
    obtain ⟨-, hnew', hold'⟩ := dated_of_evaluateFrom hprov hready' heval'
    have hfirst : db₁.holds = e₁.holds := by rw [hmat.holds, hmat'.holds, h.factAtoms_eq]
    rw [← hholds, ← hfirst] at hnew' hold'
    by_cases hadded : (name, t) ∈ db₂.holds ∧ (name, t) ∉ db₁.holds
    · obtain ⟨i, r, ⟨s, start, mid, hs, hmem, hrun, hleast⟩, hr⟩ :=
        hnew (name, t) hadded.1 hadded.2
      obtain ⟨j, r', ⟨s', start', mid', hs', hmem', hrun', hleast'⟩, hr'⟩ :=
        hnew' (name, t) hadded.1 hadded.2
      have hmatch := Stratification.matches_of_mem h (List.mem_of_getElem? hs)
        (List.mem_of_getElem? hs') hmem hmem'
      have hagree := h.agreeOn_starts hdb hmat hmat' hmatch hs hrun hs' hrun'
      have hstages : {n | 1 ≤ n ∧ (name, t) ∈ s.stage mid.holds n} =
          {n | 1 ≤ n ∧ (name, t) ∈ s'.stage mid'.holds n} := by
        ext n
        exact and_congr_right fun _ => hmatch.agreeOn_stage hagree n (name, t) (Or.inl hmem)
      rw [hstages] at hleast
      rw [hr, hr', hleast.unique hleast']
      rfl
    · rw [hold (name, t) (by tauto), hold' (name, t) (by tauto)]

end Prepared

/-- Both programs prepare a database for the same predicates with the same arities. -/
theorem arity?_of_evaluate {settings : Settings} {db₀ db₁ e₁ db₂ e₂ : Database} {n m : Nat}
    {report report' : Report} (hdb : db₀.WellFormed)
    (hmat : materialize p (Stratification.ofProgram p) db₀ = .ok n db₁)
    (heval : evaluate settings (Stratification.ofProgram p) db₁ = .ok report db₂)
    (hmat' : materialize p' (Stratification.ofProgram p') db₀ = .ok m e₁)
    (heval' : evaluate settings (Stratification.ofProgram p') e₁ = .ok report' e₂)
    (name : Predicate) : db₂.arity? name = e₂.arity? name := by
  by_cases hname : name ∈ p.predicates
  · have hname' := h.mem_predicates_iff.mp hname
    rw [(saturated_of_evaluate h.left hdb hmat heval).grown.arity?,
      (saturated_of_evaluate h.right hdb hmat' heval').grown.arity?,
      (materialized_of_materialize hmat).arity? name
        ((Stratification.perm_predicates p).mem_iff.mpr hname),
      (materialized_of_materialize hmat').arity? name
        ((Stratification.perm_predicates p').mem_iff.mpr hname'), h.arity?_eq]
  · have hname' : name ∉ p'.predicates := fun hmem => hname (h.mem_predicates_iff.mpr hmem)
    rw [Database.arity?_congr (find?_of_evaluate h.left hdb hmat heval hname),
      Database.arity?_congr (find?_of_evaluate h.right hdb hmat' heval' hname')]

theorem completes {settings : Settings} {db₀ : Database} (hdb : db₀.WellFormed)
    (hcompletes : ∃ report db, p.Completes settings db₀ report db) :
    ∃ report db, p'.Completes settings db₀ report db := by
  obtain ⟨report, db₂, n, db₁, hmat, heval⟩ := hcompletes
  obtain ⟨m, e₁, hmat'⟩ := h.exists_materialize ⟨n, db₁, hmat⟩
  obtain ⟨report', e₂, heval'⟩ := h.exists_evaluate hdb (materialized_of_materialize hmat)
    (materialized_of_materialize hmat') heval
  exact ⟨report', e₂, m, e₁, hmat', heval'⟩

end Program.SameClauses

/-- **The order of clauses and bodies does not matter.**  Let the clauses of a program be put into
another order, and the bodies of its rules as well.  The result is a program again, and its strata
are the same sets of predicates with the same flags.  From the same database and with the same
settings, preparing the database and evaluating the program succeeds for both or for neither.  If it
succeeds, the databases have the same relations with the same tuples in the end.  The reports match:
for the same set of predicates they tell the same number of rounds and of new tuples in each, and
for every tuple the same round of derivation.  If no body has changed, they also tell the same
number of tuples fetched. -/
theorem order_of_clauses_does_not_matter {p : Program} (hp : p.Reachable) {cs : List Clause}
    (hcs : Shuffled p.clauses cs) {db₀ : Database} (hdb : db₀.Reachable) (settings : Settings) :
    ∃ p', Program.ofClauses cs = .ok p' ∧
      ((Stratification.ofProgram p).strata.map Stratum.signature).Perm
        ((Stratification.ofProgram p').strata.map Stratum.signature) ∧
      ((∃ report db, p.Completes settings db₀ report db) ↔
        ∃ report db, p'.Completes settings db₀ report db) ∧
      ∀ report db report' db', p.Completes settings db₀ report db →
        p'.Completes settings db₀ report' db' →
          db.holds = db'.holds ∧ (∀ name, db.arity? name = db'.arity? name) ∧
          report.Matches (p.clauses.Perm cs) report' := by
  obtain ⟨p', hp'⟩ := hcs.exists_ofClauses hp.valid
  obtain ⟨hreachable, rfl⟩ := Program.reachable_of_ofClauses hp'
  have h := hcs.sameClauses hp.valid hreachable.valid
  refine ⟨p', hp', Stratification.perm_signatures h,
    ⟨h.completes hdb.wellFormed, h.symm.completes hdb.wellFormed⟩, ?_⟩
  rintro report db₂ report' e₂ ⟨n, db₁, hmat, heval⟩ ⟨m, e₁, hmat', heval'⟩
  have hprepared := materialized_of_materialize hmat
  have hprepared' := materialized_of_materialize hmat'
  have hholds : db₂.holds = e₂.holds := by
    have hleast := isLeast_of_evaluate hp.valid hdb.wellFormed hmat heval
    rw [h.models_eq] at hleast
    exact hleast.unique (isLeast_of_evaluate hreachable.valid hdb.wellFormed hmat' heval')
  refine ⟨hholds, h.arity?_of_evaluate hdb.wellFormed hmat heval hmat' heval', ?_, ?_, ?_⟩
  · exact h.perm_signatures hdb.wellFormed hprepared hprepared' heval heval'
  · exact fun x hx y hy =>
      h.entries_match hdb.wellFormed hprepared hprepared' heval heval' hx hy
  · exact h.round_eq hdb.wellFormed hprepared hprepared' heval heval' hholds

/-- The clauses of `paths`, the last one first, and with its body the other way round. -/
def pathsBackwards : List Clause :=
  [.rule ⟨⟨"path", [.var "X", .var "Z"]⟩,
      [⟨"path", [.var "Y", .var "Z"]⟩, ⟨"path", [.var "X", .var "Y"]⟩]⟩,
    .rule ⟨⟨"path", [.var "X", .var "Y"]⟩, [⟨"edge", [.var "X", .var "Y"]⟩]⟩,
    .fact ⟨"edge", [.const "a", .const "b"]⟩]

theorem shuffled_pathsBackwards : Shuffled paths.clauses pathsBackwards := by
  have hclauses : paths.clauses = [.fact ⟨"edge", [.const "a", .const "b"]⟩,
      .rule ⟨⟨"path", [.var "X", .var "Y"]⟩, [⟨"edge", [.var "X", .var "Y"]⟩]⟩,
      .rule ⟨⟨"path", [.var "X", .var "Z"]⟩,
        [⟨"path", [.var "X", .var "Y"]⟩, ⟨"path", [.var "Y", .var "Z"]⟩]⟩] := by decide +kernel
  refine ⟨paths.clauses.reverse, (List.reverse_perm _).symm, ?_⟩
  rw [hclauses]
  exact .cons (.rule ⟨rfl, .swap _ _ _⟩) (.cons (.refl _) (.cons (.refl _) .nil))

/-- With either order, the evaluation succeeds with two rounds that add paths, and the path over
both edges is found in the second of them. -/
theorem paths_backwards_end_alike :
    ∃ p' report report' db db', Program.ofClauses pathsBackwards = .ok p' ∧
      paths.Completes { maxRounds := some 2, trackProvenance := true } seeded report db ∧
      p'.Completes { maxRounds := some 2, trackProvenance := true } seeded report' db' ∧
      db.holds = db'.holds ∧ (report.derivation? "path" ["a", "c"]).map Derivation.round = some 2 ∧
      (report'.derivation? "path" ["a", "c"]).map Derivation.round = some 2 := by
  obtain ⟨p', hp', -, hboth, hsame⟩ := order_of_clauses_does_not_matter (.extend _ .empty)
    shuffled_pathsBackwards reachable_seeded { maxRounds := some 2, trackProvenance := true }
  obtain ⟨n, hmat⟩ := exists_materialize_paths
  obtain ⟨report, heval⟩ := eq_ok_of_succeeds
    (r := evaluate { maxRounds := some 2, trackProvenance := true } (Stratification.ofProgram paths)
      (finalState (materialize paths (Stratification.ofProgram paths) seeded)))
    (by rw [Stratification.ofProgram_eq_counted]; decide +kernel)
  have hround : ((value? (evaluate { maxRounds := some 2, trackProvenance := true }
      (Stratification.ofProgram paths)
      (finalState (materialize paths (Stratification.ofProgram paths) seeded)))).bind
        fun report => (report.derivation? "path" ["a", "c"]).map Derivation.round) = some 2 := by
    rw [Stratification.ofProgram_eq_counted]
    decide +kernel
  rw [heval] at hround
  have hcompletes : paths.Completes _ seeded report _ := ⟨n, _, hmat, heval⟩
  obtain ⟨report', db', hcompletes'⟩ := hboth.mp ⟨report, _, hcompletes⟩
  obtain ⟨hholds, -, hreports⟩ := hsame _ _ _ _ hcompletes hcompletes'
  have hround' := (hreports.round "path" ["a", "c"]).symm.trans hround
  exact ⟨p', report, report', _, db', hp', hcompletes, hcompletes', hholds, hround, hround'⟩

end Datalog
