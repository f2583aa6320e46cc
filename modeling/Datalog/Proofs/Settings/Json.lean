import Datalog.Settings.Json
import Datalog.Proofs.JsonText.Variants
import Datalog.Proofs.JsonText.Writing

/-!
# What a JSON object asks for

Settings are read from the text of an object, and only what the object says matters: neither the
spelling, nor the order of its members, nor members of other names.

* `Settings.fields?`: what an object says about each field, if everything it says is admitted.
* `Settings.describes_fields?`: the record of settings takes in what an object says.
* `Settings.ofMembers?`: the settings that an object asks for.
* `Settings.ofJson_object`: what comes of the text of an object.
-/

namespace Datalog
namespace Settings

open JsonText

/-- What the members of an object say about the fields of settings, if everything they say about
them is admitted. -/
def fields? (ms : List (String × Json)) : Option Fields := do
  let strategy ← fieldValue? (Json.plain? Strategy.ofName?) (given "strategy" ms)
  let maxRounds ← fieldValue? (Json.orNull Json.natural?) (given "max_rounds" ms)
  let trackProvenance ← fieldValue? Json.boolean? (given "track_provenance" ms)
  let collectTimings ← fieldValue? Json.boolean? (given "collect_timings" ms)
  pure ⟨strategy, maxRounds, trackProvenance, collectTimings⟩

theorem fields?_eq_some {ms : List (String × Json)} {f : Fields} : fields? ms = some f ↔
    fieldValue? (Json.plain? Strategy.ofName?) (given "strategy" ms) = some f.strategy ∧
      fieldValue? (Json.orNull Json.natural?) (given "max_rounds" ms) = some f.maxRounds ∧
      fieldValue? Json.boolean? (given "track_provenance" ms) = some f.trackProvenance ∧
      fieldValue? Json.boolean? (given "collect_timings" ms) = some f.collectTimings := by
  simp only [fields?, Option.bind_eq_bind, Option.bind_eq_some_iff, Option.pure_def]
  constructor
  · rintro ⟨_, hs, _, hm, _, ht, _, hc, h⟩
    cases h
    exact ⟨hs, hm, ht, hc⟩
  · rintro ⟨hs, hm, ht, hc⟩
    exact ⟨_, hs, _, hm, _, ht, _, hc, rfl⟩

section Step

variable {ms : List (String × Json)} {f : Fields} (hf : fields? ms = some f) (v : Json)

include hf

theorem fields?_strategy : fields? (ms ++ [("strategy", v)]) =
    (fieldValue? (Json.plain? Strategy.ofName?) (given "strategy" ms ++ [v])).map
      fun s => { f with strategy := s } := by
  obtain ⟨-, hm, ht, hc⟩ := fields?_eq_some.mp hf
  simp [fields?, given_append_self, given_append_of_ne, hm, ht, hc, Option.map_eq_bind]

theorem fields?_maxRounds : fields? (ms ++ [("max_rounds", v)]) =
    (fieldValue? (Json.orNull Json.natural?) (given "max_rounds" ms ++ [v])).map
      fun m => { f with maxRounds := m } := by
  obtain ⟨hs, -, ht, hc⟩ := fields?_eq_some.mp hf
  simp [fields?, given_append_self, given_append_of_ne, hs, ht, hc, Option.map_eq_bind]

theorem fields?_trackProvenance : fields? (ms ++ [("track_provenance", v)]) =
    (fieldValue? Json.boolean? (given "track_provenance" ms ++ [v])).map
      fun t => { f with trackProvenance := t } := by
  obtain ⟨hs, hm, -, hc⟩ := fields?_eq_some.mp hf
  simp [fields?, given_append_self, given_append_of_ne, hs, hm, hc, Option.map_eq_bind]

theorem fields?_collectTimings : fields? (ms ++ [("collect_timings", v)]) =
    (fieldValue? Json.boolean? (given "collect_timings" ms ++ [v])).map
      fun c => { f with collectTimings := c } := by
  obtain ⟨hs, hm, ht, -⟩ := fields?_eq_some.mp hf
  simp [fields?, given_append_self, given_append_of_ne, hs, hm, ht, Option.map_eq_bind]

theorem fields?_other {name : String} (hs : name ≠ "strategy") (hm : name ≠ "max_rounds")
    (ht : name ≠ "track_provenance") (hc : name ≠ "collect_timings") :
    fields? (ms ++ [(name, v)]) = some f := by
  rw [← hf]
  simp only [fields?, given_append_of_ne hs, given_append_of_ne hm, given_append_of_ne ht,
    given_append_of_ne hc]

end Step

/-- **The record of settings** takes in what an object says. -/
theorem describes_fields? : Describes fields? member {} where
  empty := rfl
  step := by
    intro ms f hf name v
    obtain ⟨hs, hm, ht, hc⟩ := fields?_eq_some.mp hf
    unfold member
    split
    · rw [fields?_strategy hf]
      exact newMember_takesIn (decodes_plainVariant _) hs v fun s => { f with strategy := s }
    · rw [fields?_maxRounds hf]
      exact newMember_takesIn decodes_count.optional hm v fun m => { f with maxRounds := m }
    · rw [fields?_trackProvenance hf]
      exact newMember_takesIn decodes_boolean ht v fun t => { f with trackProvenance := t }
    · rw [fields?_collectTimings hf]
      exact newMember_takesIn decodes_boolean hc v fun c => { f with collectTimings := c }
    · next hs' hm' ht' hc' =>
      rw [fields?_other hf v hs' hm' ht' hc']
      exact otherMember_takesIn f v
  append := by
    intro ms hms ms'
    cases hall : fields? (ms ++ ms') with
    | none => rfl
    | some f =>
      obtain ⟨hs, hm, ht, hc⟩ := fields?_eq_some.mp hall
      rw [given_append] at hs hm ht hc
      obtain ⟨s, hs⟩ := fieldValue?_of_append hs
      obtain ⟨m, hm⟩ := fieldValue?_of_append hm
      obtain ⟨t, ht⟩ := fieldValue?_of_append ht
      obtain ⟨c, hc⟩ := fieldValue?_of_append hc
      have hsome : fields? ms = some ⟨s, m, t, c⟩ := fields?_eq_some.mpr ⟨hs, hm, ht, hc⟩
      exact absurd (hms.symm.trans hsome) nofun

theorem fields?_perm {ms ms' : List (String × Json)} (h : ms.Perm ms') :
    fields? ms = fields? ms' := by
  simp only [fields?, fieldValue?_perm (given_perm _ h)]

/-! ## What comes of a text -/

/-- The settings that an object asks for: what it says about a field, and the default of a field
that it says nothing about. -/
def ofMembers? (ms : List (String × Json)) : Option Settings := do
  let f ← fields? ms
  let defaults : Settings := {}
  pure {
    strategy := f.strategy.getD defaults.strategy
    maxRounds := f.maxRounds.getD defaults.maxRounds
    trackProvenance := f.trackProvenance.getD defaults.trackProvenance
    collectTimings := f.collectTimings.getD defaults.collectTimings }

theorem ofMembers?_eq_map (ms : List (String × Json)) :
    ofMembers? ms = (fields? ms).map ofFields :=
  Option.map_eq_bind.symm

/-- **Settings** are what the object asks for. -/
theorem gives_object (ms : List (String × Json)) : Gives decoder (.object ms) (ofMembers? ms) := by
  rw [ofMembers?_eq_map]
  exact (describes_fields?.record fieldsInOrder ms).map ofFields

theorem ofJson_of_decode {text : String} {s : Settings} (h : decode decoder text = .ok s) :
    ofJson text = if s.maxRounds = some 0 then .error (.invalid .zeroRoundLimit) else .ok s := by
  unfold ofJson validate
  rw [h]
  by_cases hzero : s.maxRounds = some 0
  · simp [hzero]
  · simp [hzero]

/-- **What comes of the text of an object** is what the object asks for, however it is spelled.  If
it says about each field at most once something that is admitted, then what it says overrides the
defaults, and only a limit of zero rounds is refused; if not, the text cannot be read.  The order of
the members does not matter. -/
theorem ofJson_object {ms : List (String × Json)} {text : String}
    (h : SpellsText (.object ms) text.toList) :
    (∀ s, ofMembers? ms = some s → ofJson text =
        if s.maxRounds = some 0 then .error (.invalid .zeroRoundLimit) else .ok s) ∧
      (ofMembers? ms = none → ∃ e, ofJson text = .error (.unreadable e)) ∧
      ∀ ms', ms.Perm ms' → ofMembers? ms' = ofMembers? ms := by
  have hgives := gives_object ms
  refine ⟨fun s hs => ?_, fun hnone => ?_, fun ms' hperm => ?_⟩
  · rw [hs] at hgives
    exact ofJson_of_decode (Reads.decode hgives h)
  · rw [hnone] at hgives
    obtain ⟨e, he⟩ := Refuses.decode hgives h
    refine ⟨e, ?_⟩
    unfold ofJson
    rw [he]
  · rw [ofMembers?_eq_map, ofMembers?_eq_map, fields?_perm hperm]

/-- A text with a member that does not matter, and with a strategy given as an object. -/
def shuffledText : String :=
  "\n\x7b\"extra\":[\"strategy\"],\"max_rounds\":7,\"strategy\":\x7b\"naive\":null\x7d\x7d"

theorem shuffledText_spelled : SpellsText (.object [("extra", .array [.string "strategy"]),
    ("max_rounds", .count 7), ("strategy", .object [("naive", .null)])]) shuffledText.toList := by
  have hextra : WritesMember ("extra", .array [.string "strategy"])
      ("extra", writeArray [writeString "strategy"]) :=
    ⟨rfl, writeArray_spelled (.cons (.string (writeString_spelled _)) .nil)⟩
  have hrounds : WritesMember ("max_rounds", .count 7) ("max_rounds", writeCount 7) :=
    ⟨rfl, writeCount_spelled 7⟩
  have hnaive : WritesMember ("naive", .null) ("naive", "null".toList) := ⟨rfl, .null⟩
  have hstrategy : WritesMember ("strategy", .object [("naive", .null)])
      ("strategy", writeObject [("naive", "null".toList)]) :=
    ⟨rfl, writeObject_spelled (.cons hnaive .nil)⟩
  refine ⟨['\n'], _, [], fun c hc => ?_, writeObject_spelled
    (.cons hextra (.cons hrounds (.cons hstrategy .nil))), .nil, by decide +kernel⟩
  rw [List.mem_singleton.mp hc]
  rfl

theorem ofJson_shuffledText :
    ofJson shuffledText = .ok { strategy := .naive, maxRounds := some 7 } :=
  (ofJson_object shuffledText_spelled).1 _ rfl

end Settings
end Datalog
