import Datalog.Proofs.Fixpoint.Harvest

/-!
# What a round commits

The second half of a round inserts what its joins collected, and notes the tuples that are new.  If
`A` are the collected atoms, the database then states those of `A` besides its former ones, and the
noted tuples are those of `A` that it did not state before (`Harvest.commit_eq`).  Both descriptions
compose, so the order in which the tuples are inserted does not matter.
-/

namespace Datalog

/-- What inserting the atoms of `A`, with the new ones noted, leads to. -/
structure Committed (A : Interpretation) (db added db' added' : Database) : Prop where
  grown : db.Grown A db'
  complete : A ⊆ db'.holds
  addedTo : added'.AddedTo db'
  holds_added : added'.holds = added.holds ∪ (A \ db.holds)

namespace Committed

variable {A B : Interpretation} {db added db' added' db'' added'' : Database}

theorem holds (h : Committed A db added db' added') : db'.holds = db.holds ∪ A :=
  Set.Subset.antisymm h.grown.holds_subset_union
    (Set.union_subset h.grown.holds_subset h.complete)

theorem nothing (h : added.AddedTo db) : Committed ∅ db added db added where
  grown := .refl db
  complete := Set.empty_subset _
  addedTo := h
  holds_added := by rw [Set.empty_sdiff, Set.union_empty]

theorem trans (h : Committed A db added db' added') (h' : Committed B db' added' db'' added'') :
    Committed (A ∪ B) db added db'' added'' where
  grown := (h.grown.mono Set.subset_union_left).trans (h'.grown.mono Set.subset_union_right)
  complete := Set.union_subset (h.complete.trans h'.grown.holds_subset) h'.complete
  addedTo := h'.addedTo
  holds_added := by
    rw [h'.holds_added, h.holds_added, h.holds]
    ext g
    simp only [Set.mem_union, Set.mem_sdiff, not_or]
    tauto

end Committed

/-! ## Single tuples -/

section Calls

variable {db added : Database} {name : Predicate}

/-- A tuple whose relation is there can be noted. -/
theorem noteAdded_eq_ok {t : Tuple} (hadded : added.AddedTo db)
    (harity : db.arity? name = some t.length) :
    ∃ added', noteAdded added name t = .ok added' ∧ added'.AddedTo db ∧
      added'.holds = added.holds ∪ {(name, t)} := by
  have hfits : ∀ k, added.arity? name = some k → k = t.length := by
    intro k hk
    have hk' := hadded.arity? name k hk
    rw [harity] at hk'
    exact (Option.some.inj hk').symm
  obtain ⟨mid, hmid⟩ := Database.create_eq_ok hfits
  have hcreated := Database.created_of_create hmid
  obtain ⟨isNew, added', hins⟩ := Database.insert_eq_ok hcreated.arity?_self
  have hinserted := Database.inserted_of_insert hins
  refine ⟨added', ?_, ⟨(hadded.wellFormed.create hmid).insert hins, ?_⟩, ?_⟩
  · show (added.create name t.length >>= fun added => added.insert name t >>= fun result =>
      pure result.2) = _
    rw [hmid]
    show (mid.insert name t >>= fun result => pure result.2) = _
    rw [hins]
    rfl
  · intro other k hk
    rw [hinserted.arity?] at hk
    by_cases hne : other = name
    · subst hne
      rw [hcreated.arity?_self] at hk
      rw [harity, ← hk]
    · rw [Database.arity?_congr (hcreated.find?_of_ne other hne)] at hk
      exact hadded.arity? other k hk
  · rw [hinserted.holds, hcreated.holds]

/-- The first tuple is inserted, and noted if it is new. -/
theorem commitTuples_cons (hadded : added.AddedTo db) {t : Tuple}
    (harity : db.arity? name = some t.length) (ts : List Tuple) :
    ∃ added' db', commitTuples name (t :: ts) added db = commitTuples name ts added' db' ∧
      Committed {(name, t)} db added db' added' := by
  obtain ⟨isNew, db', hins⟩ := Database.insert_eq_ok harity
  have hinserted := Database.inserted_of_insert hins
  have hadded' : added.AddedTo db' := by
    refine ⟨hadded.wellFormed, fun other k hk => ?_⟩
    rw [hinserted.arity?]
    exact hadded.arity? other k hk
  have hgrown : db.Grown {(name, t)} db' := .single rfl hins
  have hcomplete : {(name, t)} ⊆ db'.holds := by
    rw [hinserted.holds]
    exact Set.subset_union_right
  rw [commitTuples, bind_of_eq_ok _ (Storage.insert_database_eq_ok.mpr hins)]
  by_cases hold : t ∈ db.tuples name
  · have hflag : isNew = false := by rw [hinserted.isNew_eq]; simp [hold]
    have hnothing : {(name, t)} \ db.holds = ∅ :=
      Set.sdiff_eq_empty.mpr (Set.singleton_subset_iff.mpr hold)
    refine ⟨added, db', by rw [hflag]; rfl, hgrown, hcomplete, hadded', ?_⟩
    rw [hnothing, Set.union_empty]
  · have hflag : isNew = true := by rw [hinserted.isNew_eq]; simp [hold]
    have harity' : db'.arity? name = some t.length := by rw [hinserted.arity?, harity]
    obtain ⟨added₁, hnote, hadded₁, hholds⟩ := noteAdded_eq_ok hadded' harity'
    have hnew : {(name, t)} \ db.holds = {(name, t)} :=
      sdiff_eq_left.mpr (Set.disjoint_singleton_left.mpr hold)
    refine ⟨added₁, db', by rw [hflag]; simp only [hnote]; rfl, hgrown, hcomplete, hadded₁, ?_⟩
    rw [hholds, hnew]

theorem commitTuples_eq {ts : List Tuple} (hadded : added.AddedTo db)
    (harity : ∀ t ∈ ts, db.arity? name = some t.length) :
    ∃ added' db', commitTuples name ts added db = .ok added' db' ∧
      Committed {g | g.1 = name ∧ g.2 ∈ ts} db added db' added' := by
  induction ts generalizing db added with
  | nil =>
    refine ⟨added, db, rfl, ?_⟩
    have hempty : {g : GroundAtom | g.1 = name ∧ g.2 ∈ ([] : List Tuple)} = ∅ := by
      ext g
      simp
    rw [hempty]
    exact .nothing hadded
  | cons t ts ih =>
    obtain ⟨added₁, mid, hfirst, hcommitted₁⟩ :=
      commitTuples_cons hadded (harity t List.mem_cons_self) ts
    have harity₁ : ∀ u ∈ ts, mid.arity? name = some u.length := by
      intro u hu
      rw [hcommitted₁.grown.arity?]
      exact harity u (List.mem_cons_of_mem t hu)
    obtain ⟨added', db', heq, hcommitted⟩ := ih hcommitted₁.addedTo harity₁
    have hsplit : {g : GroundAtom | g.1 = name ∧ g.2 ∈ t :: ts} =
        {(name, t)} ∪ {g | g.1 = name ∧ g.2 ∈ ts} := by
      ext ⟨other, u⟩
      simp only [Set.mem_ofPred_eq, List.mem_cons, Set.mem_union, Set.mem_singleton_iff,
        Prod.mk.injEq]
      tauto
    rw [hsplit, hfirst]
    exact ⟨added', db', heq, hcommitted₁.trans hcommitted⟩

/-! ## All tuples -/

theorem commit_eq {entries : List (Predicate × List Tuple)} (hadded : added.AddedTo db)
    (harity : ∀ e ∈ entries, ∀ t ∈ e.2, db.arity? e.1 = some t.length) :
    ∃ added' db', commit entries added db = .ok added' db' ∧
      Committed {g | ∃ e ∈ entries, g.1 = e.1 ∧ g.2 ∈ e.2} db added db' added' := by
  induction entries generalizing db added with
  | nil =>
    refine ⟨added, db, rfl, ?_⟩
    have hempty : {g : GroundAtom | ∃ e ∈ ([] : List (Predicate × List Tuple)),
        g.1 = e.1 ∧ g.2 ∈ e.2} = ∅ := by
      ext g
      simp
    rw [hempty]
    exact .nothing hadded
  | cons e entries ih =>
    obtain ⟨name, ts⟩ := e
    obtain ⟨added₁, db₁, heq₁, h₁⟩ := commitTuples_eq hadded (harity (name, ts) List.mem_cons_self)
    have harity₁ : ∀ e ∈ entries, ∀ t ∈ e.2, db₁.arity? e.1 = some t.length := by
      intro e he t ht
      rw [h₁.grown.arity?]
      exact harity e (List.mem_cons_of_mem _ he) t ht
    obtain ⟨added', db', heq, h⟩ := ih h₁.addedTo harity₁
    refine ⟨added', db', ?_, ?_⟩
    · rw [commit, bind_of_eq_ok _ heq₁]
      exact heq
    · have hsplit : {g : GroundAtom | ∃ e ∈ (name, ts) :: entries, g.1 = e.1 ∧ g.2 ∈ e.2} =
          {g | g.1 = name ∧ g.2 ∈ ts} ∪ {g | ∃ e ∈ entries, g.1 = e.1 ∧ g.2 ∈ e.2} := by
        ext g
        exact List.exists_mem_cons_iff _ _ _
      rw [hsplit]
      exact h₁.trans h

end Calls

/-- **Committing what a round has collected** inserts it and notes what is new. -/
theorem Harvest.commit_eq {h : Harvest} (hh : h.candidates.keys.Nodup) {db : Database}
    (harity : ∀ g ∈ h.collected, db.arity? g.1 = some g.2.length) :
    ∃ added' db', commit h.candidates.entries ∅ db = .ok added' db' ∧
      Committed h.collected db ∅ db' added' := by
  have hcollected : {g : GroundAtom | ∃ e ∈ h.candidates.entries, g.1 = e.1 ∧ g.2 ∈ e.2} =
      h.collected := by
    ext ⟨name, t⟩
    constructor
    · rintro ⟨⟨_, ts⟩, he, rfl, ht⟩
      exact ⟨ts, Table.find?_of_mem_entries hh he, ht⟩
    · rintro ⟨ts, hfind, ht⟩
      exact ⟨(name, ts), Table.mem_entries_of_find? hfind, rfl, ht⟩
  have harity' : ∀ e ∈ h.candidates.entries, ∀ t ∈ e.2, db.arity? e.1 = some t.length := by
    rintro ⟨name, ts⟩ he t ht
    exact harity (name, t) ⟨ts, Table.find?_of_mem_entries hh he, ht⟩
  have hempty : Database.AddedTo ∅ db := ⟨.empty, fun name k hk => by cases hk⟩
  rw [← hcollected]
  exact Datalog.commit_eq hempty harity'

end Datalog
