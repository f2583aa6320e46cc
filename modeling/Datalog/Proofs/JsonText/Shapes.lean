import Datalog.Proofs.JsonText.Decoding
import Mathlib.Data.List.Forall2

/-!
# Arrays and records

How the decoders of arrays and records are described by what their parts do.

* `Reads.array`: an array is read if its elements are.
* `Collects`, `Collects.record`: a record takes in members one after the other, all of them or up to
  one that is refused.
* `given`, `fieldValue?`: what an object says about a field, whatever the order of its members.
* `Describes.record`: a record is what its object says about the fields.

## Members that are taken in

What a record does with a member depends on the members before, since a field must not be given
twice.  So a member is described by what it makes of the fields met so far, and the order of the
members stays the order of the text.
-/

namespace Datalog
namespace JsonText

variable {α β : Type}

/-- What stands in front of an element or a member: blanks, and a comma unless it is the first. -/
inductive Lead : Bool → List Char → Prop where
  | first {b : List Char} : IsBlanks b → Lead true b
  | later {b b' : List Char} : IsBlanks b → IsBlanks b' → Lead false (b ++ ',' :: b')

/-! ## Arrays -/

theorem nextElement_of_value {v : Json} {cs p rest : List Char} (hcs : Spells (.value v) cs)
    {first : Bool} (hp : Lead first p) :
    nextElement first (p ++ (cs ++ rest)) = .ok (true, cs ++ rest) := by
  obtain ⟨c, t, rfl, hc⟩ := hcs.exists_cons
  cases hp with
  | first hb =>
    unfold nextElement
    rw [List.cons_append, bind_of_read _ (peek_behind hb hc.isBlank)]
    generalize hnext : some c = next
    split
    · cases hnext
    · exact absurd (Option.some.inj hnext) hc.ne_bracket
    · rfl
  | @later b b' hb hb' =>
    have hpeek := peek_behind (t := t ++ rest) hb' hc.isBlank
    unfold nextElement
    rw [List.append_assoc, List.cons_append, bind_of_read _ (peek_behind hb rfl)]
    show (do advance; let next ← peek; _ : Decoder Bool) (',' :: (b' ++ (c :: t ++ rest))) = _
    rw [bind_of_read _ (advance_cons _ _), List.cons_append, bind_of_read _ hpeek]
    generalize hnext : some c = next
    split
    · cases hnext
    · exact absurd (Option.some.inj hnext) hc.ne_bracket
    · rfl

theorem nextElement_of_bracket {b rest : List Char} (hb : IsBlanks b) (first : Bool) :
    nextElement first (b ++ ']' :: rest) = .ok (false, ']' :: rest) := by
  unfold nextElement
  rw [bind_of_read _ (peek_behind hb rfl)]
  rfl

theorem endArray_bracket (rest : List Char) : endArray (']' :: rest) = .ok ((), rest) := rfl

theorem elements_of_bracket {d : Decoder α} {b rest : List Char} (hb : IsBlanks b) (first : Bool)
    (fuel : Nat) : elements d (fuel + 1) first (b ++ ']' :: rest) = .ok ([], ']' :: rest) := by
  rw [elements, bind_of_read _ (nextElement_of_bracket hb first)]
  rfl

theorem elements_of_value {d : Decoder α} {v : Json} {a : α} (h : Reads d v a)
    {cs p rest : List Char} (hcs : Spells (.value v) cs) (hrest : Ended rest) {first : Bool}
    (hp : Lead first p) (fuel : Nat) :
    elements d (fuel + 1) first (p ++ (cs ++ rest)) =
      (do let as ← elements d fuel false; pure (a :: as) : Decoder (List α)) rest := by
  rw [elements, bind_of_read _ (nextElement_of_value hcs hp), if_pos rfl]
  exact bind_of_read _ (h [] cs rest .nil hcs hrest)

/-- The elements of an array, up to the bracket. -/
theorem elements_spelled {d : Decoder α} {vs : List Json} {cs : List Char}
    (hcs : Spells (.elements vs) cs) {as : List α} (has : List.Forall₂ (Reads d) vs as)
    {first : Bool} {p b rest : List Char} (hp : Lead first p) (hb : IsBlanks b) {fuel : Nat}
    (hfuel : cs.length < fuel) :
    elements d fuel first (p ++ (cs ++ (b ++ ']' :: rest))) = .ok (as, ']' :: rest) := by
  generalize hpart : Part.elements vs = part at hcs
  induction hcs generalizing vs as first p fuel with
  | lastElement hv =>
    cases hpart
    cases has with
    | cons ha has =>
      cases has
      obtain ⟨c, t, rfl, -⟩ := hv.exists_cons
      obtain ⟨fuel, rfl⟩ := Nat.exists_eq_add_of_le' (show 2 ≤ fuel from by simp at hfuel; omega)
      rw [elements_of_value ha hv (ended_behind hb (Or.inr (Or.inl rfl))) hp,
        bind_of_read _ (elements_of_bracket hb false fuel)]
      rfl
  | @element _ _ _ _ _ ds hv hb₁ hb₂ hvs _ ih =>
    cases hpart
    cases has with
    | cons ha has =>
      simp only [List.length_append, List.length_cons] at hfuel
      obtain ⟨fuel, rfl⟩ := Nat.exists_eq_add_of_le' (show 1 ≤ fuel by omega)
      have hrest := ih has (.later hb₁ hb₂) (show ds.length < fuel by omega) rfl
      simp only [List.append_assoc, List.cons_append] at hrest ⊢
      rw [elements_of_value ha hv (ended_behind hb₁ (Or.inl rfl)) hp, bind_of_read _ hrest]
      rfl
  | _ => cases hpart

theorem array_of_elements {d : Decoder α} {as : List α} {b t rest : List Char} (hb : IsBlanks b)
    (h : elements d (t.length + 1) true t = .ok (as, ']' :: rest)) :
    array d (b ++ '[' :: t) = .ok (as, rest) := by
  unfold array
  rw [bind_of_read _ (valueStart_behind hb rfl)]
  simp only
  rw [bind_of_read _ (advance_cons _ _)]
  show (do let as ← elements d (t.length + 1) true; endArray; pure as : Decoder (List α)) t = _
  rw [bind_of_read _ h, bind_of_read _ (endArray_bracket rest)]
  rfl

/-- **An array** is read if its elements are. -/
theorem Reads.array {d : Decoder α} {vs : List Json} {as : List α}
    (has : List.Forall₂ (Reads d) vs as) : Reads (array d) (.array vs) as := by
  intro b cs rest hb hcs _
  cases hcs with
  | emptyArray hb' =>
    cases has
    rw [List.cons_append, List.append_assoc]
    exact array_of_elements hb (elements_of_bracket hb' true _)
  | array hb' hvs hb'' =>
    simp only [List.cons_append, List.append_assoc, List.nil_append]
    refine array_of_elements hb (elements_spelled hvs has (.first hb') hb'' ?_)
    simp only [List.length_append]
    omega

theorem reads_array_map {d : Decoder α} {json : α → Json} (h : ∀ a, Reads d (json a) a)
    (as : List α) : Reads (array d) (.array (as.map json)) as := by
  refine Reads.array (List.forall₂_map_left_iff.mpr ?_)
  exact List.forall₂_same.mpr fun a _ => h a

/-! ## The members of a record -/

/-- What the decoder makes of a colon and any spelling of a value. -/
def TakesIn (d : Decoder β) (v : Json) (r? : Option β) : Prop :=
  ∀ b b' cs rest, IsBlanks b → IsBlanks b' → Spells (.value v) cs → Ended rest →
    Yields (d (b ++ ':' :: (b' ++ (cs ++ rest)))) rest r?

theorem Gives.newMember {d : Decoder α} {v : Json} {a? : Option α} (h : Gives d v a?)
    (set : α → β) : TakesIn (newMember none d set) v (a?.map set) := by
  intro b b' cs rest hb hb' hcs hrest
  have hvalue := h b' cs rest hb' hcs hrest
  unfold JsonText.newMember
  simp only
  rw [bind_of_read _ (colon_behind hb)]
  cases a? with
  | some a => exact bind_of_read _ hvalue
  | none =>
    obtain ⟨e, he⟩ := hvalue
    exact ⟨e, bind_of_fault _ he⟩

/-- A field that has been given is not given again. -/
theorem newMember_again (a : α) (d : Decoder α) (set : α → β) (v : Json) :
    TakesIn (newMember (some a) d set) v none :=
  fun _ _ _ _ _ _ _ _ => ⟨.mismatched, rfl⟩

theorem otherMember_takesIn (r : β) (v : Json) : TakesIn (otherMember r) v (some r) := by
  intro b b' cs rest hb hb' hcs hrest
  unfold otherMember
  rw [bind_of_read _ (colon_behind hb), bind_of_read _ (skipAny_spelled hb' hcs hrest)]
  rfl

theorem nextMember_of_name {name : String} {ns p rest : List Char} (hns : SpellsString name ns)
    {first : Bool} (hp : Lead first p) :
    nextMember first (p ++ (ns ++ rest)) = .ok (some name, rest) := by
  obtain ⟨cs, hcs, heq⟩ := hns.exists_chars
  have hname : memberName ('"' :: (cs ++ '"' :: rest)) = .ok (name, rest) := by
    have hread := memberName_behind .nil hns rest
    rw [heq] at hread
    exact hread
  cases hp with
  | first hb =>
    unfold nextMember
    rw [heq, bind_of_read _ (peek_behind hb rfl)]
    show (some <$> memberName) _ = _
    rw [← bind_pure_comp, bind_of_read _ hname]
    rfl
  | later hb hb' =>
    have hbehind := memberName_behind hb' hns rest
    unfold nextMember
    rw [List.append_assoc, List.cons_append, bind_of_read _ (peek_behind hb rfl)]
    show (do advance; some <$> memberName : Decoder (Option String)) _ = _
    rw [bind_of_read _ (advance_cons _ _), ← bind_pure_comp, bind_of_read _ hbehind]
    rfl

theorem nextMember_of_brace {b rest : List Char} (hb : IsBlanks b) (first : Bool) :
    nextMember first (b ++ '\x7d' :: rest) = .ok (none, rest) := by
  unfold nextMember
  rw [bind_of_read _ (peek_behind hb rfl)]
  rfl

section Loop

variable {member : β → String → Decoder β}

/-- The members are taken in one after the other, all of them or up to one that is refused. -/
inductive Collects (member : β → String → Decoder β) :
    β → List (String × Json) → Option β → Prop where
  | nil (r : β) : Collects member r [] (some r)
  | cons {r r' : β} {name : String} {v : Json} {ms : List (String × Json)} {r? : Option β} :
      TakesIn (member r name) v (some r') → Collects member r' ms r? →
      Collects member r ((name, v) :: ms) r?
  | stop {r : β} {name : String} {v : Json} {ms : List (String × Json)} :
      TakesIn (member r name) v none → Collects member r ((name, v) :: ms) none

theorem members_of_brace {b rest : List Char} (hb : IsBlanks b) (first : Bool) (r : β)
    (fuel : Nat) : members member (fuel + 1) first r (b ++ '\x7d' :: rest) = .ok (r, rest) := by
  rw [members, bind_of_read _ (nextMember_of_brace hb first)]
  rfl

section Step

variable {r : β} {name : String} {v : Json} {cs p rest : List Char} {first : Bool} {fuel : Nat}
  (hcs : Spells (.member name v) cs) (hp : Lead first p) (hrest : Ended rest)

include hcs hp hrest

theorem members_of_read {r' : β} (h : TakesIn (member r name) v (some r')) :
    members member (fuel + 1) first r (p ++ (cs ++ rest)) = members member fuel false r' rest := by
  cases hcs with
  | member hns hb hb' hv =>
    simp only [List.append_assoc, List.cons_append]
    rw [members, bind_of_read _ (nextMember_of_name hns hp)]
    exact bind_of_read _ (h _ _ _ _ hb hb' hv hrest)

theorem members_of_refused (h : TakesIn (member r name) v none) :
    ∃ e, members member (fuel + 1) first r (p ++ (cs ++ rest)) = .error e := by
  cases hcs with
  | member hns hb hb' hv =>
    obtain ⟨e, he⟩ := h _ _ _ _ hb hb' hv hrest
    simp only [List.append_assoc, List.cons_append]
    rw [members, bind_of_read _ (nextMember_of_name hns hp)]
    exact ⟨e, bind_of_fault _ he⟩

end Step

/-- **The members of a record** are read up to the brace, or up to one that is refused. -/
theorem members_spelled {ms : List (String × Json)} {cs : List Char}
    (hcs : Spells (.members ms) cs) {r : β} {r? : Option β} (hms : Collects member r ms r?)
    {first : Bool} {p b rest : List Char} (hp : Lead first p) (hb : IsBlanks b) {fuel : Nat}
    (hfuel : cs.length < fuel) :
    Yields (members member fuel first r (p ++ (cs ++ (b ++ '\x7d' :: rest)))) rest r? := by
  generalize hpart : Part.members ms = part at hcs
  induction hcs generalizing ms r first p fuel with
  | lastMember hm =>
    cases hpart
    have hends : Ended (b ++ '\x7d' :: rest) := ended_behind hb (Or.inr (Or.inr rfl))
    obtain ⟨c, t, rfl, -⟩ := hm.exists_cons
    obtain ⟨fuel, rfl⟩ := Nat.exists_eq_add_of_le' (show 2 ≤ fuel from by simp at hfuel; omega)
    cases hms with
    | cons hread hms =>
      cases hms
      rw [members_of_read hm hp hends hread]
      exact members_of_brace hb false _ fuel
    | stop hrefuse => exact members_of_refused hm hp hends hrefuse
  | @moreMembers _ _ _ _ _ _ ds hm hb₁ hb₂ hds _ ih =>
    cases hpart
    simp only [List.length_append, List.length_cons] at hfuel
    obtain ⟨fuel, rfl⟩ := Nat.exists_eq_add_of_le' (show 1 ≤ fuel by omega)
    simp only [List.append_assoc, List.cons_append]
    cases hms with
    | cons hread hms =>
      have hrest := ih hms (.later hb₁ hb₂) (show ds.length < fuel by omega) rfl
      simp only [List.append_assoc, List.cons_append] at hrest
      rw [members_of_read hm hp (ended_behind hb₁ (Or.inl rfl)) hread]
      exact hrest
    | stop hrefuse => exact members_of_refused hm hp (ended_behind hb₁ (Or.inl rfl)) hrefuse
  | _ => cases hpart

variable {nothing : β} {inOrder : Decoder β} {ms : List (String × Json)}

theorem record_brace {b t : List Char} (hb : IsBlanks b) :
    record member nothing inOrder (b ++ '\x7b' :: t) =
      members member (t.length + 1) true nothing t := by
  unfold record
  rw [bind_of_read _ (valueStart_behind hb rfl)]
  simp only
  rw [bind_of_read _ (advance_cons _ _)]
  rfl

/-- **A record** is read from an object if its members can be taken in. -/
theorem Collects.record {r? : Option β} (h : Collects member nothing ms r?) :
    Gives (record member nothing inOrder) (.object ms) r? := by
  intro b cs rest hb hcs _
  cases hcs with
  | emptyObject hb' =>
    cases h
    simp only [List.cons_append, List.append_assoc, List.nil_append]
    rw [record_brace hb]
    exact members_of_brace hb' true _ _
  | object hb' hms hb'' =>
    simp only [List.cons_append, List.append_assoc, List.nil_append]
    rw [record_brace hb]
    exact members_spelled hms h (.first hb') hb'' (by simp only [List.length_append]; omega)

end Loop

/-! ## What an object says about a field -/

/-- The values given under a name, in the order of the members. -/
def given (name : String) (ms : List (String × Json)) : List Json :=
  ms.filterMap fun m => if m.1 = name then some m.2 else none

theorem given_append (name : String) (ms ms' : List (String × Json)) :
    given name (ms ++ ms') = given name ms ++ given name ms' :=
  List.filterMap_append

theorem given_append_self (name : String) (v : Json) (ms : List (String × Json)) :
    given name (ms ++ [(name, v)]) = given name ms ++ [v] := by
  rw [given_append]
  simp [given]

theorem given_append_of_ne {name other : String} (h : other ≠ name) (v : Json)
    (ms : List (String × Json)) : given name (ms ++ [(other, v)]) = given name ms := by
  rw [given_append]
  simp [given, h]

theorem given_perm (name : String) {ms ms' : List (String × Json)} (h : ms.Perm ms') :
    (given name ms).Perm (given name ms') :=
  h.filterMap _

/-- What the values given for a field say about it, if they are admitted: there must not be two, and
a single one must be a value of the field. -/
def fieldValue? (value? : Json → Option α) : List Json → Option (Option α)
  | [] => some none
  | [v] => (value? v).map some
  | _ => none

section FieldValue

variable {value? : Json → Option α} {vs ws : List Json}

/-- What is admitted is admitted up to any place. -/
theorem fieldValue?_of_append {new : Option α} (h : fieldValue? value? (vs ++ ws) = some new) :
    ∃ old, fieldValue? value? vs = some old := by
  match vs, ws with
  | [], _ => exact ⟨none, rfl⟩
  | [v], [] => exact ⟨new, h⟩
  | [v], w :: ws => cases h
  | v :: v' :: vs, ws => cases h

theorem fieldValue?_perm (h : vs.Perm ws) : fieldValue? value? vs = fieldValue? value? ws := by
  match vs, ws with
  | [], ws => rw [h.nil_eq]
  | [v], ws => rw [List.singleton_perm.mp h]
  | v :: v' :: vs, [] => cases h.length_eq
  | v :: v' :: vs, [w] => cases h.length_eq
  | v :: v' :: vs, w :: w' :: ws => rfl

end FieldValue

/-- A field is taken in if all that is given for it is admitted. -/
theorem newMember_takesIn {d : Decoder α} {value? : Json → Option α} (hd : Decodes d value?)
    {vs : List Json} {old : Option α} (h : fieldValue? value? vs = some old) (v : Json)
    (set : Option α → β) :
    TakesIn (newMember old d fun a => set (some a)) v
      ((fieldValue? value? (vs ++ [v])).map set) := by
  match vs with
  | [] =>
    cases h
    show TakesIn _ v (((value? v).map some).map set)
    rw [Option.map_map]
    exact (hd.gives v).newMember _
  | [w] =>
    obtain ⟨a, -, rfl⟩ := Option.map_eq_some_iff.mp h
    exact newMember_again a d _ v
  | _ :: _ :: _ => cases h

/-- A function that says what a record makes of the members of an object. -/
structure Describes (fields? : List (String × Json) → Option β) (member : β → String → Decoder β)
    (nothing : β) : Prop where
  empty : fields? [] = some nothing
  step : ∀ {ms r}, fields? ms = some r → ∀ name v,
    TakesIn (member r name) v (fields? (ms ++ [(name, v)]))
  /-- What has been refused stays refused. -/
  append : ∀ {ms}, fields? ms = none → ∀ ms', fields? (ms ++ ms') = none

namespace Describes

variable {fields? : List (String × Json) → Option β} {member : β → String → Decoder β}
  {nothing : β} (h : Describes fields? member nothing)

include h

theorem collects {ms : List (String × Json)} {r : β} (hms : fields? ms = some r)
    (ms' : List (String × Json)) : Collects member r ms' (fields? (ms ++ ms')) := by
  induction ms' generalizing ms r with
  | nil =>
    rw [List.append_nil, hms]
    exact .nil r
  | cons m ms' ih =>
    obtain ⟨name, v⟩ := m
    rw [List.append_cons]
    have hstep := h.step hms name v
    cases hm : fields? (ms ++ [(name, v)]) with
    | none =>
      rw [hm] at hstep
      rw [h.append hm]
      exact .stop hstep
    | some r' =>
      rw [hm] at hstep
      exact .cons hstep (ih hm)

/-- **A record** is what its object says about the fields. -/
theorem record (inOrder : Decoder β) (ms : List (String × Json)) :
    Gives (record member nothing inOrder) (.object ms) (fields? ms) :=
  (h.collects h.empty ms).record

end Describes

end JsonText
end Datalog
