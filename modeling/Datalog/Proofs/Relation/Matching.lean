import Datalog.Proofs.Relation.Index

/-!
# Looking up a pattern is filtering the tuples

`Relation.matching` takes the shortest list of candidates that the position index offers.  In a
relation whose index is exact, the answer does not depend on that choice: it is the list of all
tuples that fit the pattern, in order of insertion.

* `Relation.WellFormed`: distinct tuples of one arity, and an exact index.
* `Relation.WellFormed.insert`: insertion keeps a relation well formed.
* `Relation.WellFormed.matching_eq_filter`: the look-up is the filter.
-/

namespace Datalog

namespace Pattern

/-- A tuple as long as the pattern fits it if it has the bound value at every bound position. -/
theorem fits_iff {pattern : Pattern} {t : Tuple} (h : pattern.length = t.length) :
    pattern.fits t = true ↔ ∀ (i : Nat) (c : Constant), pattern[i]? = some (some c) →
      t[i]? = some c := by
  induction pattern generalizing t with
  | nil => simp [fits]
  | cons bound bounds ih =>
    cases t with
    | nil => simp at h
    | cons v vs =>
      have hlen : bounds.length = vs.length := by simpa using h
      have htail : fits bounds vs = true ↔ ∀ (i : Nat) (c : Constant),
          (bound :: bounds)[i + 1]? = some (some c) → (v :: vs)[i + 1]? = some c := by
        simp only [List.getElem?_cons_succ]
        exact ih hlen
      cases bound with
      | none =>
        rw [fits, htail]
        constructor
        · intro hrest i c hi
          cases i with
          | zero => simp at hi
          | succ i => exact hrest i c hi
        · exact fun hall i c hi => hall (i + 1) c hi
      | some b =>
        rw [fits, Bool.and_eq_true, decide_eq_true_iff, htail]
        constructor
        · rintro ⟨rfl, hrest⟩ i c hi
          cases i with
          | zero => simpa using hi
          | succ i => exact hrest i c hi
        · intro hall
          refine ⟨?_, fun i c hi => hall (i + 1) c hi⟩
          have hhead := hall 0 b rfl
          simpa using hhead.symm

end Pattern

namespace Relation

/-- Distinct tuples of one arity, and an index that is exact about them. -/
structure WellFormed (r : Relation) : Prop where
  /-- Every tuple has the arity of the relation. -/
  length_tuple : ∀ t ∈ r.tuples, t.length = r.arity
  /-- No tuple is stored twice. -/
  nodup : r.tuples.Nodup
  /-- There is a position map for every argument. -/
  length_index : r.index.length = r.arity
  /-- The position maps say what the tuples say. -/
  exact_index : r.index.Exact r.tuples

theorem wellFormed_empty (arity : Nat) : (empty arity).WellFormed where
  length_tuple := by simp [empty]
  nodup := List.nodup_nil
  length_index := PositionIndex.length_empty arity
  exact_index := PositionIndex.exact_empty arity

theorem arity_insert (r : Relation) (t : Tuple) : (r.insert t).2.arity = r.arity := by
  unfold insert
  split <;> rfl

theorem tuples_insert (r : Relation) (t : Tuple) :
    (r.insert t).2.tuples = arrive r.tuples t := by
  unfold insert arrive
  split <;> rfl

/-- The flag of an insertion says whether the tuple is new. -/
theorem insert_fst (r : Relation) (t : Tuple) : (r.insert t).1 = decide (t ∉ r.tuples) := by
  unfold insert
  split <;> simp_all

/-- Insertion of a tuple of the right length keeps a relation well formed. -/
theorem WellFormed.insert {r : Relation} (h : r.WellFormed) {t : Tuple} (ht : t.length = r.arity) :
    (r.insert t).2.WellFormed := by
  unfold Relation.insert
  split
  · exact h
  · next hnew =>
    refine ⟨?_, ?_, ?_, ?_⟩
    · intro u hu
      rcases List.mem_append.mp hu with hu | hu
      · exact h.length_tuple u hu
      · rw [List.mem_singleton.mp hu]
        exact ht
    · rw [← arrive_of_not_mem hnew]
      exact nodup_arrive t h.nodup
    · show (PositionIndex.add r.tuples.length r.index t).length = r.arity
      rw [PositionIndex.length_add, h.length_index]
    · exact h.exact_index.add (h.length_index.trans ht.symm)

/-! ## The candidates -/

/-- What the candidates found so far must be, for the part of a pattern already looked at: the
places of one of its bound values, or nothing if one of its bound values does not occur. -/
def Candidates.Justified (tuples : List Tuple) (pattern : Pattern) : Candidates → Prop
  | all => ∀ c, some c ∉ pattern
  | among places =>
    ∃ i c, pattern[i]? = some (some c) ∧ places = placesOf tuples i c
  | nowhere => ∃ i c, pattern[i]? = some (some c) ∧ placesOf tuples i c = []

/-- Taking a further bound position into account. -/
theorem Candidates.Justified.narrow {tuples : List Tuple} {pattern : Pattern} {found : Candidates}
    (h : found.Justified tuples pattern) (c : Constant) :
    (found.narrow (placesOf tuples pattern.length c)).Justified tuples
      (pattern ++ [some c]) := by
  have hnew : (pattern ++ [some c])[pattern.length]? = some (some c) := by simp
  cases found with
  | all => exact ⟨pattern.length, c, hnew, rfl⟩
  | nowhere =>
    obtain ⟨i, d, hi, hd⟩ := h
    exact ⟨i, d, getElem?_of_prefix (List.prefix_append _ _) hi, hd⟩
  | among best =>
    obtain ⟨i, d, hi, rfl⟩ := h
    rw [Candidates.narrow]
    split
    · exact ⟨pattern.length, c, hnew, rfl⟩
    · exact ⟨i, d, getElem?_of_prefix (List.prefix_append _ _) hi, rfl⟩

/-- With an exact index, the candidates are justified by the part of the pattern looked at. -/
theorem justified_candidatesFrom {index : PositionIndex} {tuples : List Tuple}
    (hindex : index.Exact tuples) {front : Pattern} {found : Candidates}
    (h : found.Justified tuples front) (rest : Pattern) :
    (candidatesFrom index front.length found rest).Justified tuples (front ++ rest) := by
  induction rest generalizing front found with
  | nil =>
    rw [candidatesFrom, List.append_nil]
    exact h
  | cons bound bounds ih =>
    have hsplit : front ++ bound :: bounds = (front ++ [bound]) ++ bounds := by simp
    have hlen : front.length + 1 = (front ++ [bound]).length := by simp
    cases bound with
    | none =>
      rw [candidatesFrom, hsplit, hlen]
      apply ih
      cases found with
      | all =>
        intro c hc
        rcases List.mem_append.mp hc with hc | hc
        · exact h c hc
        · simp at hc
      | among places =>
        obtain ⟨i, c, hi, hp⟩ := h
        exact ⟨i, c, getElem?_of_prefix (List.prefix_append _ _) hi, hp⟩
      | nowhere =>
        obtain ⟨i, c, hi, hp⟩ := h
        exact ⟨i, c, getElem?_of_prefix (List.prefix_append _ _) hi, hp⟩
    | some c =>
      rw [candidatesFrom, hindex front.length c]
      cases hplaces : entryOf (placesOf tuples front.length c) with
      | none =>
        refine ⟨front.length, c, ?_, entryOf_eq_none_iff.mp hplaces⟩
        simp
      | some places =>
        rw [← (entryOf_eq_some_iff.mp hplaces).1, hsplit, hlen]
        exact ih (h.narrow c)

/-- **Looking up a pattern is filtering the tuples**, in a well-formed relation and for a pattern of
its arity. -/
theorem WellFormed.matching_eq_filter {r : Relation} (h : r.WellFormed) {pattern : Pattern}
    (hp : pattern.length = r.arity) : r.matching pattern = r.tuples.filter pattern.fits := by
  have hlen : ∀ t ∈ r.tuples, pattern.length = t.length :=
    fun t ht => hp.trans (h.length_tuple t ht).symm
  have hjust : (r.candidates pattern).Justified r.tuples pattern := by
    have hstart : Candidates.all.Justified r.tuples [] := by
      intro c hc
      simp at hc
    exact justified_candidatesFrom h.exact_index hstart pattern
  unfold matching
  cases hc : r.candidates pattern with
  | all =>
    rw [hc] at hjust
    refine (List.filter_eq_self.mpr ?_).symm
    intro t ht
    rw [Pattern.fits_iff (hlen t ht)]
    exact fun i c hi => absurd (List.mem_of_getElem? hi) (hjust c)
  | nowhere =>
    rw [hc] at hjust
    obtain ⟨i, c, hi, hnone⟩ := hjust
    refine (List.filter_eq_nil_iff.mpr ?_).symm
    intro t ht hfits
    exact placesOf_eq_nil_iff.mp hnone t ht ((Pattern.fits_iff (hlen t ht)).mp hfits i c hi)
  | among places =>
    rw [hc] at hjust
    obtain ⟨i, c, hi, rfl⟩ := hjust
    show ((placesOf r.tuples i c).filterMap fun i => r.tuples[i]?).filter pattern.fits = _
    rw [filterMap_placesOf, List.filter_filter]
    apply List.filter_congr
    intro t ht
    rw [Bool.and_eq_left_iff_imp]
    intro hfits
    rw [decide_eq_true_iff]
    exact (Pattern.fits_iff (hlen t ht)).mp hfits i c hi

end Relation

end Datalog
