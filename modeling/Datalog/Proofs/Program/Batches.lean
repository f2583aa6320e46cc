import Datalog.Proofs.Program

/-!
# Many batches and one

Two batches, one after the other, do what the batch of both does: it is accepted exactly if both
are, with the same result, and otherwise refused for the same reason
(`Program.two_batches_are_one`).  Hence how clauses were divided into batches, and which batches
were refused in between, does not show in a program: it is the program of its clauses, entered as a
single batch (`Program.Reachable.ofClauses_clauses`).  So programs with the same clauses are the
same, and have the same catalog.

The places that a catalog notes are counted from the beginning of the program and not of the batch,
and a new occurrence of a predicate is compared with the first one wherever that stands.  So
entering a clause depends on the clauses before it and not on where a batch begins
(`Catalog.enterAll_append`).
-/

namespace Datalog

namespace Catalog

/-- Entering two lists of clauses at once enters one after the other. -/
theorem enterAll_append (place : Nat) (as bs : List Clause) :
    enterAll place (as ++ bs) =
      (enterAll place as >>= fun _ => enterAll (place + as.length) bs) := by
  induction as generalizing place with
  | nil => rfl
  | cons a as ih =>
    rw [List.cons_append, enterAll, enterAll, bind_assoc, List.length_cons, ih,
      Nat.add_right_comm, Nat.add_assoc place]

end Catalog

namespace Program

/-- A batch is accepted if its clauses can be entered, and then it is appended. -/
theorem extend_eq_ok_iff {p q : Program} {batch : List Clause} :
    extend batch p = .ok () q ↔
      ∃ catalog, Catalog.enterAll p.clauses.length batch p.catalog = .ok () catalog ∧
        q = ⟨p.clauses ++ batch, catalog⟩ := by
  unfold extend
  cases Catalog.enterAll p.clauses.length batch p.catalog with
  | ok u catalog =>
    simp only [EStateM.Result.ok.injEq, true_and]
    exact ⟨fun h => ⟨catalog, rfl, h.symm⟩, fun ⟨_, hsame, h⟩ => by rw [h, hsame]⟩
  | error e catalog => simp

/-- A batch is refused if its clauses cannot be entered, and then nothing changes. -/
theorem Valid.extend_eq_error_iff {p q : Program} (hp : p.Valid) {batch : List Clause}
    {e : IllFormed} :
    extend batch p = .error e q ↔
      q = p ∧ ∃ catalog, Catalog.enterAll p.clauses.length batch p.catalog = .error e catalog := by
  constructor
  · intro h
    refine ⟨extend_error hp h, ?_⟩
    unfold extend at h
    cases henter : Catalog.enterAll p.clauses.length batch p.catalog with
    | ok u catalog =>
      rw [henter] at h
      cases h
    | error e' catalog =>
      rw [henter] at h
      obtain ⟨rfl, -⟩ := EStateM.Result.error.inj h
      exact ⟨catalog, rfl⟩
  · rintro ⟨rfl, catalog, henter⟩
    have hrun : extend batch q = .error e (finalState (extend batch q)) := by
      unfold extend
      rw [henter]
      rfl
    rw [extend_error hp hrun] at hrun
    exact hrun

/-- The catalog is what entering all clauses gives. -/
theorem Reachable.enterAll_clauses {p : Program} (h : p.Reachable) :
    Catalog.enterAll 0 p.clauses ∅ = .ok () p.catalog := by
  induction h with
  | empty => rfl
  | @extend p batch hp ih =>
    cases hrun : Program.extend batch p with
    | error e p' =>
      obtain rfl := extend_error hp.valid hrun
      exact ih
    | ok u p' =>
      unfold Program.extend at hrun
      cases henter : Catalog.enterAll p.clauses.length batch p.catalog with
      | error e catalog =>
        rw [henter] at hrun
        cases hrun
      | ok u catalog =>
        rw [henter] at hrun
        obtain ⟨-, rfl⟩ := EStateM.Result.ok.inj hrun
        show Catalog.enterAll 0 (p.clauses ++ batch) ∅ = .ok () catalog
        rw [Catalog.enterAll_append, bind_of_eq_ok _ ih, Nat.zero_add, henter]

/-- **A program is the program of its clauses**, whatever the batches it was built from. -/
theorem Reachable.ofClauses_clauses {p : Program} (h : p.Reachable) :
    ofClauses p.clauses = .ok p := by
  have henter : Catalog.enterAll ({} : Program).clauses.length p.clauses ({} : Program).catalog =
      .ok () p.catalog := h.enterAll_clauses
  unfold ofClauses Program.extend
  rw [henter]
  rfl

theorem Reachable.eq_of_clauses_eq {p q : Program} (hp : p.Reachable) (hq : q.Reachable)
    (h : p.clauses = q.clauses) : p = q := by
  have heq := hp.ofClauses_clauses
  rw [h, hq.ofClauses_clauses] at heq
  exact (Except.ok.inj heq).symm

/-- A batch of two lists is accepted if the first list is, and then the second. -/
theorem extend_append_eq_ok_iff {p q : Program} {as bs : List Clause} :
    extend (as ++ bs) p = .ok () q ↔
      ∃ mid, extend as p = .ok () mid ∧ extend bs mid = .ok () q := by
  have hlength : (p.clauses ++ as).length = p.clauses.length + as.length := List.length_append
  rw [extend_eq_ok_iff, Catalog.enterAll_append]
  constructor
  · rintro ⟨catalog, henter, rfl⟩
    obtain ⟨_, mid, hfirst, hrest⟩ := bind_eq_ok.mp henter
    rw [← hlength] at hrest
    refine ⟨⟨p.clauses ++ as, mid⟩, extend_eq_ok_iff.mpr ⟨mid, hfirst, rfl⟩,
      extend_eq_ok_iff.mpr ⟨catalog, hrest, ?_⟩⟩
    rw [List.append_assoc]
  · rintro ⟨_, hmid, hq⟩
    obtain ⟨mid, hfirst, rfl⟩ := extend_eq_ok_iff.mp hmid
    obtain ⟨catalog, hrest, rfl⟩ := extend_eq_ok_iff.mp hq
    rw [hlength] at hrest
    refine ⟨catalog, bind_eq_ok.mpr ⟨(), mid, hfirst, hrest⟩, ?_⟩
    rw [List.append_assoc]

/-- A batch of two lists is refused if the first list is, or else the second after the first. -/
theorem Valid.extend_append_eq_error_iff {p q : Program} (hp : p.Valid) {as bs : List Clause}
    {e : IllFormed} :
    extend (as ++ bs) p = .error e q ↔ q = p ∧ (extend as p = .error e p ∨
      ∃ mid, extend as p = .ok () mid ∧ extend bs mid = .error e mid) := by
  have hlength : (p.clauses ++ as).length = p.clauses.length + as.length := List.length_append
  rw [hp.extend_eq_error_iff, Catalog.enterAll_append, hp.extend_eq_error_iff]
  refine and_congr_right fun _ => ?_
  constructor
  · rintro ⟨catalog, henter⟩
    rcases bind_eq_error.mp henter with hfirst | ⟨_, mid, hfirst, hrest⟩
    · exact Or.inl ⟨rfl, catalog, hfirst⟩
    · have hmid : extend as p = .ok () ⟨p.clauses ++ as, mid⟩ :=
        extend_eq_ok_iff.mpr ⟨mid, hfirst, rfl⟩
      rw [← hlength] at hrest
      exact Or.inr ⟨_, hmid,
        (extend_ok hp hmid).2.extend_eq_error_iff.mpr ⟨rfl, catalog, hrest⟩⟩
  · rintro (⟨-, catalog, hfirst⟩ | ⟨_, hmid, hrefused⟩)
    · exact ⟨catalog, bind_eq_error.mpr (Or.inl hfirst)⟩
    · obtain ⟨-, catalog, hrest⟩ := (extend_ok hp hmid).2.extend_eq_error_iff.mp hrefused
      obtain ⟨mid, hfirst, rfl⟩ := extend_eq_ok_iff.mp hmid
      rw [hlength] at hrest
      exact ⟨catalog, bind_eq_error.mpr (Or.inr ⟨(), mid, hfirst, hrest⟩)⟩

/-- **Two batches are one.**  In every program that batches can build, whichever of them were
refused, the batch of two lists of clauses is accepted exactly if the first list is accepted and
then the second, and the resulting programs are identical.  It is refused exactly if the first list
is refused, or is accepted and the second one is refused after it; the reason is the same, and the
program stays what it was.  Hence the program is that of its own clauses. -/
theorem two_batches_are_one {p : Program} (hp : p.Reachable) (as bs : List Clause) :
    (∀ q, extend (as ++ bs) p = .ok () q ↔
      ∃ mid, extend as p = .ok () mid ∧ extend bs mid = .ok () q) ∧
    (∀ e q, extend (as ++ bs) p = .error e q ↔ q = p ∧ (extend as p = .error e p ∨
      ∃ mid, extend as p = .ok () mid ∧ extend bs mid = .error e mid)) ∧
    ofClauses p.clauses = .ok p :=
  ⟨fun _ => extend_append_eq_ok_iff, fun _ _ => hp.valid.extend_append_eq_error_iff,
    hp.ofClauses_clauses⟩

/-- A ferry from one port to another. -/
def crossing : Clause := .fact ⟨"ferry", [.const "bari", .const "tirana"]⟩

/-- A ferry without a destination. -/
def outing : Clause := .fact ⟨"ferry", [.const "bari"]⟩

/-- After a refused batch that has used "ferry" with one argument first, two arguments are accepted,
and one is refused in the next batch as in the same batch. -/
theorem outing_refused_behind_crossing :
    let p := finalState (extend [outing, crossing] {})
    extend ([crossing] ++ [outing]) p = .error (.arityMismatch "ferry" 2 1) p ∧
      ofClauses p.clauses = .ok p := by
  intro p
  obtain ⟨-, hrefused, hsame⟩ := two_batches_are_one (p := p) (.extend _ .empty) [crossing] [outing]
  let mid : Program := ⟨[crossing], ⟨[("ferry", ⟨2, [0], []⟩)]⟩⟩
  have hfirst : extend [crossing] p = .ok () mid := rfl
  have hrefusal : extend [outing] mid = .error (.arityMismatch "ferry" 2 1) mid := rfl
  exact ⟨(hrefused _ _).mpr ⟨rfl, Or.inr ⟨mid, hfirst, hrefusal⟩⟩, hsame⟩

end Program
end Datalog
