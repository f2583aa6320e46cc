import Datalog.Proofs.Consequence

/-!
# What the joins of a round collect

Against a database that has the relations of a stratum, the joins of a round cannot fail, they leave
the database as it is, and they collect exactly the ground atoms that `Stratum.joined` gives for the
rules of the stratum; the tuples that they fetch for a rule are `Stratum.fetchedFor` many
(`harvest_eq`).
-/

namespace Datalog

/-- The rules of a stratum define its predicates and bind all variables of their heads, and the
database has the relations that they read and write. -/
structure Stratum.SupportedBy (s : Stratum) (db : Database) : Prop where
  defines : ∀ r ∈ s.rules, r.head.predicate ∈ s.predicates
  rangeRestricted : ∀ r ∈ s.rules, r.RangeRestricted
  body : ∀ r ∈ s.rules, ∀ b ∈ r.body, db.arity? b.predicate = some b.arity
  head : ∀ r ∈ s.rules, db.arity? r.head.predicate = some r.head.arity

theorem Stratum.SupportedBy.of_arity? {s : Stratum} {db db' : Database} (h : s.SupportedBy db)
    (heq : ∀ name, db'.arity? name = db.arity? name) : s.SupportedBy db' where
  defines := h.defines
  rangeRestricted := h.rangeRestricted
  body r hr b hb := (heq b.predicate).trans (h.body r hr b hb)
  head r hr := (heq r.head.predicate).trans (h.head r hr)

/-- The rules of a stratum add atoms over its own predicates only. -/
theorem Stratum.SupportedBy.fst_mem_predicates {s : Stratum} {db : Database} (h : s.SupportedBy db)
    {I : Interpretation} {g : GroundAtom} (hg : g ∈ s.consequences I) : g.1 ∈ s.predicates := by
  obtain ⟨r, hr, hconseq⟩ := hg
  rw [Rule.fst_of_mem_consequences hconseq]
  exact h.defines r hr

/-- Tuples that a round has added to a database: their relations have the same arities there. -/
structure Database.AddedTo (added db : Database) : Prop where
  wellFormed : added.WellFormed
  arity? : ∀ name k, added.arity? name = some k → db.arity? name = some k

theorem Database.AddedTo.eq_of_arity? {added db : Database} (h : added.AddedTo db)
    {name : Predicate} {k arity : Nat} (hk : added.arity? name = some k)
    (harity : db.arity? name = some arity) : k = arity :=
  Option.some.inj ((h.arity? name k hk).symm.trans harity)

namespace Rule

theorem map_snd_overStored (r : Rule) : r.overStored.map Prod.snd = r.body := by
  unfold overStored
  rw [List.map_map]
  exact List.map_id r.body

theorem map_snd_overRecent (r : Rule) (position : Nat) (added : Database) :
    (r.overRecent position added).map Prod.snd = r.body := by
  unfold overRecent
  apply List.ext_getElem?
  intro j
  rw [List.getElem?_map, List.getElem?_mapIdx, Option.map_map]
  cases r.body[j]? <;> rfl

theorem mem_overRecent {r : Rule} {position : Nat} {added : Database} {p : Range × Atom} :
    p ∈ r.overRecent position added ↔ ∃ j b, r.body[j]? = some b ∧
      p = (if j = position then .recent added else .stored, b) := by
  unfold overRecent
  rw [List.mem_mapIdx]
  constructor
  · rintro ⟨j, hj, rfl⟩
    exact ⟨j, r.body[j], List.getElem?_eq_getElem hj, rfl⟩
  · rintro ⟨j, b, hj, rfl⟩
    obtain ⟨hlt, rfl⟩ := List.getElem?_eq_some_iff.mp hj
    exact ⟨j, hlt, rfl⟩

theorem satisfies_overStored {r : Rule} {db : Database} {v : Valuation} :
    Satisfies db v r.overStored ↔ ∀ b ∈ r.body, b.ground v ∈ db.holds := by
  unfold Satisfies overStored
  rw [List.forall_mem_map]
  rfl

theorem satisfies_overRecent {r : Rule} {position : Nat} {added db : Database} {v : Valuation} :
    Satisfies db v (r.overRecent position added) ↔ ∀ j b, r.body[j]? = some b →
      b.ground v ∈ if j = position then added.holds else db.holds := by
  have hrange : ∀ (j : Nat) (b : Atom),
      (b.ground v).2 ∈ (if j = position then Range.recent added else .stored).tuples db
        b.predicate ↔ b.ground v ∈ if j = position then added.holds else db.holds := by
    intro j b
    split <;> rfl
  constructor
  · intro h j b hj
    exact (hrange j b).mp (h _ (mem_overRecent.mpr ⟨j, b, hj, rfl⟩))
  · intro h p hp
    obtain ⟨j, b, hj, rfl⟩ := mem_overRecent.mp hp
    exact (hrange j b).mpr (h j b hj)

/-- What is derived over the whole relations. -/
theorem mem_derived_overStored {r : Rule} (hr : r.RangeRestricted) {db : Database} {t : Tuple} :
    t ∈ r.derived db r.overStored ↔ (r.head.predicate, t) ∈ r.consequences db.holds := by
  rw [mem_derived_iff hr r.map_snd_overStored]
  constructor
  · rintro ⟨v, hsat, rfl⟩
    exact ⟨v, satisfies_overStored.mp hsat, rfl⟩
  · rintro ⟨v, hbody, hhead⟩
    exact ⟨v, satisfies_overStored.mpr hbody, congrArg Prod.snd hhead⟩

/-- What is derived with one atom over the tuples just added. -/
theorem mem_derived_overRecent {r : Rule} (hr : r.RangeRestricted) {position : Nat}
    {added db : Database} {t : Tuple} :
    t ∈ r.derived db (r.overRecent position added) ↔
      (r.head.predicate, t) ∈ r.freshConsequences position added.holds db.holds := by
  rw [mem_derived_iff hr (r.map_snd_overRecent position added)]
  constructor
  · rintro ⟨v, hsat, rfl⟩
    exact ⟨v, satisfies_overRecent.mp hsat, rfl⟩
  · rintro ⟨v, hbody, hhead⟩
    exact ⟨v, satisfies_overRecent.mpr hbody, congrArg Prod.snd hhead⟩

theorem served_overStored {r : Rule} {db : Database}
    (h : ∀ b ∈ r.body, db.arity? b.predicate = some b.arity) : Served db r.overStored := by
  unfold Served overStored
  rw [List.forall_mem_map]
  exact h

/-- The atom that ranges over the tuples just added needs no relation there, but none of another
arity. -/
theorem served_overRecent {r : Rule} {added db : Database}
    (h : ∀ b ∈ r.body, db.arity? b.predicate = some b.arity) (hadded : added.WellFormed)
    (position : Nat) (hposition : ∀ b k, r.body[position]? = some b →
      added.arity? b.predicate = some k → k = b.arity) :
    Served db (r.overRecent position added) := by
  intro p hp
  obtain ⟨j, b, hj, rfl⟩ := mem_overRecent.mp hp
  by_cases hji : j = position
  · rw [if_pos hji]
    exact ⟨hadded, fun k => hposition b k (hji ▸ hj)⟩
  · rw [if_neg hji]
    exact h b (List.mem_of_getElem? hj)

end Rule

/-! ## The rules of a round -/

/-- The number of tuples that a rule fetches, with each of the given atoms in turn ranging over the
tuples just added. -/
def Rule.fetchedAgain (r : Rule) (added db : Database) (positions : List Nat) : Nat :=
  total (positions.map fun i => scanned db (r.overRecent i added) [∅])

/-- The number of tuples that a round fetches for a rule. -/
def Stratum.fetchedFor (settings : Settings) (s : Stratum) (round : Nat) (added db : Database)
    (r : Rule) : Nat :=
  if round = 1 then scanned db r.overStored [∅]
  else
    match settings.strategy with
    | .naive => if s.isRecursiveRule r then scanned db r.overStored [∅] else 0
    | .semiNaive => r.fetchedAgain added db (s.localPositions r)

section Calls

variable {db added : Database} {s : Stratum} {r : Rule}

theorem deriveAgain_eq (hdb : db.WellFormed) (hs : s.SupportedBy db) (hr : r ∈ s.rules)
    (hadded : added.AddedTo db) (positions : List Nat) :
    ∃ derived, deriveAgain r added positions db =
        .ok (derived, r.fetchedAgain added db positions) db ∧
      ∀ t, t ∈ derived ↔ ∃ i ∈ positions,
        (r.head.predicate, t) ∈ r.freshConsequences i added.holds db.holds := by
  induction positions with
  | nil => exact ⟨[], rfl, by simp⟩
  | cons i positions ih =>
    obtain ⟨others, heq, hmem⟩ := ih
    have hserved := Rule.served_overRecent (hs.body r hr) hadded.wellFormed i
      fun b k hb hk => hadded.eq_of_arity? hk (hs.body r hr b (List.mem_of_getElem? hb))
    refine ⟨(r.derived db (r.overRecent i added) ++ others).eraseDups, ?_, ?_⟩
    · rw [deriveAgain, bind_of_eq_ok _ (derive_eq hdb r hserved)]
      simp only
      rw [bind_of_eq_ok _ heq]
      rfl
    · intro t
      rw [List.mem_eraseDups, List.mem_append, hmem,
        Rule.mem_derived_overRecent (hs.rangeRestricted r hr), List.exists_mem_cons_iff]

/-- The tuples that a rule contributes to a round. -/
def contributed : Option (List Tuple × Nat) → List Tuple
  | none => []
  | some (derived, _) => derived

/-- The tuples that a rule has fetched for a round. -/
def charged : Option (List Tuple × Nat) → Nat
  | none => 0
  | some (_, fetched) => fetched

theorem deriveInRound_eq (settings : Settings) (hdb : db.WellFormed) (hs : s.SupportedBy db)
    (hr : r ∈ s.rules) (hadded : added.AddedTo db) (round : Nat) :
    ∃ result, deriveInRound settings s round added r db = .ok result db ∧
      charged result = s.fetchedFor settings round added db r ∧
      ∀ t, t ∈ contributed result ↔
        (r.head.predicate, t) ∈ s.joined settings round added.holds db.holds r := by
  have hwhole : ∃ result, (some <$> r.derive r.overStored) db = .ok result db ∧
      charged result = scanned db r.overStored [∅] ∧
      ∀ t, t ∈ contributed result ↔ (r.head.predicate, t) ∈ r.consequences db.holds := by
    refine ⟨_, map_eq_ok.mpr ⟨_, derive_eq hdb r (Rule.served_overStored (hs.body r hr)), rfl⟩,
      rfl, ?_⟩
    exact fun t => Rule.mem_derived_overStored (hs.rangeRestricted r hr)
  unfold deriveInRound Stratum.joined Stratum.fetchedFor
  by_cases hround : round = 1
  · rw [if_pos hround, if_pos hround, if_pos hround]
    exact hwhole
  · rw [if_neg hround, if_neg hround, if_neg hround]
    cases settings.strategy with
    | naive =>
      simp only
      split
      · exact hwhole
      · exact ⟨none, rfl, rfl, fun t => by simp [contributed]⟩
    | semiNaive =>
      obtain ⟨derived, heq, hmem⟩ := deriveAgain_eq hdb hs hr hadded (s.localPositions r)
      exact ⟨some (derived, _), map_eq_ok.mpr ⟨_, heq, rfl⟩, rfl, hmem⟩

end Calls

namespace Harvest

/-- The ground atoms collected. -/
def collected (h : Harvest) : Interpretation :=
  {g | ∃ ts, h.candidates.find? g.1 = some ts ∧ g.2 ∈ ts}

theorem mem_collected_add (h : Harvest) (r : Rule) (derived : List Tuple) (n : Nat)
    {g : GroundAtom} :
    g ∈ (h.add r derived n).collected ↔
      g ∈ h.collected ∨ (g.1 = r.head.predicate ∧ g.2 ∈ derived) := by
  obtain ⟨name, t⟩ := g
  unfold collected add
  by_cases hd : derived = []
  · simp [hd]
  · simp only [if_neg hd, Set.mem_ofPred_eq, Table.find?_upsert]
    by_cases hname : name = r.head.predicate
    · subst hname
      cases hf : h.candidates.find? r.head.predicate with
      | none => simp [List.mem_eraseDups]
      | some ts => simp [List.mem_eraseDups]
    · simp [hname]

theorem nodup_keys_add {h : Harvest} (hh : h.candidates.keys.Nodup) (r : Rule)
    (derived : List Tuple) (n : Nat) : (h.add r derived n).candidates.keys.Nodup := by
  unfold add
  simp only
  split
  · exact hh
  · exact Table.nodup_keys_upsert hh _ _

end Harvest

/-- **The joins of a round** collect what the rules find, and change nothing. -/
theorem harvest_eq (settings : Settings) {db added : Database} {s : Stratum} (hdb : db.WellFormed)
    (hs : s.SupportedBy db) (hadded : added.AddedTo db) (round : Nat) {rules : List Rule}
    (hrules : ∀ r ∈ rules, r ∈ s.rules) {h : Harvest} (hh : h.candidates.keys.Nodup) :
    ∃ h', harvest settings s round added rules h db = .ok h' db ∧ h'.candidates.keys.Nodup ∧
      h'.fetched = h.fetched + total (rules.map (s.fetchedFor settings round added db)) ∧
      ∀ g, g ∈ h'.collected ↔ g ∈ h.collected ∨
        ∃ r ∈ rules, g ∈ s.joined settings round added.holds db.holds r := by
  induction rules generalizing h with
  | nil => exact ⟨h, rfl, hh, rfl, by simp⟩
  | cons r rules ih =>
    have hr := hrules r List.mem_cons_self
    have hrest : ∀ r ∈ rules, r ∈ s.rules := fun r hr => hrules r (List.mem_cons_of_mem _ hr)
    obtain ⟨result, heq, hcharged, hmem⟩ := deriveInRound_eq settings hdb hs hr hadded round
    have hjoined : ∀ g, g ∈ s.joined settings round added.holds db.holds r ↔
        g.1 = r.head.predicate ∧ g.2 ∈ contributed result := by
      intro g
      constructor
      · intro hg
        have hfst := Stratum.fst_of_mem_joined hg
        refine ⟨hfst, (hmem g.2).mpr ?_⟩
        rw [← hfst]
        exact hg
      · rintro ⟨hfst, hsnd⟩
        have hg := (hmem g.2).mp hsnd
        rw [← hfst] at hg
        exact hg
    rw [harvest, bind_of_eq_ok _ heq, List.map_cons, total_cons, ← hcharged]
    cases result with
    | none =>
      obtain ⟨h', heq', hnodup, hfetched, hcollected⟩ := ih hrest hh
      refine ⟨h', heq', hnodup, ?_, fun g => ?_⟩
      · rw [hfetched, charged, Nat.zero_add]
      · rw [hcollected g, List.exists_mem_cons_iff, hjoined g]
        simp [contributed]
    | some result =>
      obtain ⟨derived, n⟩ := result
      obtain ⟨h', heq', hnodup, hfetched, hcollected⟩ :=
        ih hrest (Harvest.nodup_keys_add hh r derived n)
      refine ⟨h', heq', hnodup, ?_, fun g => ?_⟩
      · rw [hfetched, charged]
        exact Nat.add_assoc h.fetched n _
      · rw [hcollected g, Harvest.mem_collected_add, List.exists_mem_cons_iff, hjoined g, or_assoc]
        rfl

end Datalog
