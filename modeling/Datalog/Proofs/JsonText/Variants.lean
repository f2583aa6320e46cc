import Datalog.Proofs.JsonText.Shapes

/-!
# Variants

A variant is an object whose only member names it, and a variant that carries nothing may also be
given by its name alone.

* `Reads.variant`: what a variant with something that it carries is read as.
* `Json.plain?`, `decodes_plainVariant`: the values that stand for a variant that carries nothing.

## The first member decides

The decoder of a variant reads the first member as if it were the only one, and then asks for the
brace.  So the texts of objects are described by their first member and what stands behind it
(`Opens`), which is a brace or a comma.
-/

namespace Datalog
namespace JsonText

variable {α : Type}

/-- An object text that begins with this member, and what stands behind the member. -/
inductive Opens (name : String) (v : Json) : List Char → List Char → Prop where
  | member {b ns b₁ b₂ vs t : List Char} : IsBlanks b → SpellsString name ns → IsBlanks b₁ →
      IsBlanks b₂ → Spells (.value v) vs →
      Opens name v ('\x7b' :: (b ++ (ns ++ (b₁ ++ ':' :: (b₂ ++ (vs ++ t)))))) t

theorem Opens.append {name : String} {v : Json} {cs t : List Char} (h : Opens name v cs t)
    (rest : List Char) : Opens name v (cs ++ rest) (t ++ rest) := by
  cases h with
  | member hb hns hb₁ hb₂ hv =>
    simp only [List.cons_append, List.append_assoc]
    exact .member hb hns hb₁ hb₂ hv

theorem Spells.opens_only {name : String} {v : Json} {cs : List Char}
    (h : Spells (.value (.object [(name, v)])) cs) :
    ∃ b, IsBlanks b ∧ Opens name v cs (b ++ ['\x7d']) := by
  cases h with
  | object hb hms hb' =>
    cases hms with
    | lastMember hm =>
      cases hm with
      | member hns hb₁ hb₂ hv =>
        refine ⟨_, hb', ?_⟩
        simp only [List.append_assoc, List.cons_append]
        exact .member hb hns hb₁ hb₂ hv
    | moreMembers _ _ _ hms => cases hms

theorem Spells.opens_first {name : String} {v : Json} {m : String × Json}
    {ms : List (String × Json)} {cs : List Char}
    (h : Spells (.value (.object ((name, v) :: m :: ms))) cs) :
    ∃ b t, IsBlanks b ∧ Opens name v cs (b ++ ',' :: t) := by
  cases h with
  | @object _ _ _ b₄ hb hms hb' =>
    cases hms with
    | @moreMembers _ _ _ _ _ b₃ ds hm hb₂ _ _ =>
      cases hm with
      | member hns hb₀ hb₁ hv =>
        refine ⟨_, b₃ ++ (ds ++ (b₄ ++ ['\x7d'])), hb₂, ?_⟩
        simp only [List.append_assoc, List.cons_append]
        exact .member hb hns hb₀ hb₁ hv

section Payload

variable {payload? : String → Option (Decoder α)} {name : String} {v : Json} {cs t : List Char}
  (h : Opens name v cs t)

include h

theorem variantObject_of_unknown (hnone : payload? name = none) :
    variantObject payload? cs = .error .mismatched := by
  cases h with
  | member hb hns _ _ _ =>
    unfold variantObject
    rw [bind_of_read _ (advance_cons _ _), bind_of_read _ (memberName_behind hb hns _), hnone]
    rfl

variable {d : Decoder α} (hd : payload? name = some d) (ht : Ended t)

include hd ht

theorem variantObject_of_read {a : α} (hread : Reads d v a) :
    variantObject payload? cs = (do endVariant; pure a : Decoder α) t := by
  cases h with
  | member hb hns hb₁ hb₂ hv =>
    unfold variantObject
    rw [bind_of_read _ (advance_cons _ _), bind_of_read _ (memberName_behind hb hns _), hd]
    simp only
    rw [bind_of_read _ (colon_behind hb₁), bind_of_read _ (hread _ _ _ hb₂ hv ht)]

theorem variantObject_of_refused (hrefuse : Refuses d v) :
    ∃ e, variantObject payload? cs = .error e := by
  cases h with
  | member hb hns hb₁ hb₂ hv =>
    obtain ⟨e, he⟩ := hrefuse _ _ _ hb₂ hv ht
    unfold variantObject
    rw [bind_of_read _ (advance_cons _ _), bind_of_read _ (memberName_behind hb hns _), hd]
    simp only
    rw [bind_of_read _ (colon_behind hb₁)]
    exact ⟨e, bind_of_fault _ he⟩

end Payload

theorem endVariant_of_brace {b rest : List Char} (hb : IsBlanks b) (a : α) :
    (do endVariant; pure a : Decoder α) (b ++ '\x7d' :: rest) = .ok (a, rest) := by
  unfold endVariant
  rw [bind_assoc, bind_of_read _ (peek_behind hb rfl)]
  rfl

theorem endVariant_of_comma {b t : List Char} (hb : IsBlanks b) (a : α) :
    (do endVariant; pure a : Decoder α) (b ++ ',' :: t) = .error .malformed := by
  unfold endVariant
  rw [bind_assoc, bind_of_read _ (peek_behind hb rfl)]
  rfl

/-- An object of one member is read as what the variant of its name carries. -/
theorem reads_variantObject {payload? : String → Option (Decoder α)} {name : String}
    {d : Decoder α} {v : Json} {a : α} (hd : payload? name = some d) (h : Reads d v a)
    {cs rest : List Char} (hcs : Spells (.value (.object [(name, v)])) cs) :
    variantObject payload? (cs ++ rest) = .ok (a, rest) := by
  obtain ⟨b, hb, hopens⟩ := hcs.opens_only
  have hopens := hopens.append rest
  rw [List.append_assoc] at hopens
  rw [variantObject_of_read hopens hd (ended_behind hb (Or.inr (Or.inr rfl))) h]
  exact endVariant_of_brace hb a

/-- **A variant** that carries something. -/
theorem Reads.variant {payload? : String → Option (Decoder α)} {name : String} {d : Decoder α}
    {v : Json} {a : α} (hd : payload? name = some d) (h : Reads d v a) :
    Reads (variant payload?) (.object [(name, v)]) a := by
  intro b cs rest hb hcs _
  obtain ⟨_, t, rfl, rfl⟩ := hcs.exists_cons
  unfold JsonText.variant
  rw [List.cons_append, bind_of_read _ (valueStart_behind hb rfl)]
  exact reads_variantObject hd h hcs

/-- The variant that a name stands for, given as a string or as the only member of an object, which
then is `null`. -/
def Json.plain? (value? : String → Option α) : Json → Option α
  | string name => value? name
  | object [(name, null)] => value? name
  | _ => none

theorem plainVariant_object {value? : String → Option α} {ms : List (String × Json)}
    {b cs rest : List Char} (hb : IsBlanks b) (hcs : Spells (.value (.object ms)) cs) :
    plainVariant value? (b ++ (cs ++ rest)) =
      variantObject (fun name => (value? name).map fun a => do null; pure a) (cs ++ rest) := by
  obtain ⟨_, t, rfl, rfl⟩ := hcs.exists_cons
  unfold plainVariant
  rw [List.cons_append, bind_of_read _ (valueStart_behind hb rfl)]
  rfl

theorem plainVariant_string {value? : String → Option α} {name : String} {b cs rest : List Char}
    (hb : IsBlanks b) (hcs : Spells (.value (.string name)) cs) :
    plainVariant value? (b ++ (cs ++ rest)) = (required (value? name) : Decoder α) rest := by
  cases hcs with
  | string hs =>
    have hread := string_behind .nil hs rest
    obtain ⟨ts, -, heq⟩ := hs.exists_chars
    unfold plainVariant
    rw [heq, bind_of_read _ (valueStart_behind hb rfl), ← heq]
    exact bind_of_read _ hread

theorem reads_nothing (a : α) : Reads (do null; pure a : Decoder α) .null a :=
  (decodes_null.reads .null () rfl).map fun _ => a

theorem refuses_something (a : α) {v : Json} (hv : v ≠ .null) :
    Refuses (do null; pure a : Decoder α) v := by
  refine (decodes_null.refuses v ?_).map fun _ => a
  cases v with
  | null => exact absurd rfl hv
  | _ => rfl

section Plain

variable {value? : String → Option α} {name : String} {a : α}

theorem reads_plainObject (h : value? name = some a) :
    Reads (plainVariant value?) (.object [(name, .null)]) a := by
  intro b cs rest hb hcs _
  rw [plainVariant_object hb hcs]
  exact reads_variantObject (by rw [h]; rfl) (reads_nothing a) hcs

/-- Neither an unknown name, nor a value other than `null`, nor a second member is admitted. -/
theorem refuses_plainObject {v : Json} {ms : List (String × Json)}
    (h : Json.plain? value? (.object ((name, v) :: ms)) = none) :
    Refuses (plainVariant value?) (.object ((name, v) :: ms)) := by
  intro b cs rest hb hcs _
  rw [plainVariant_object hb hcs]
  obtain ⟨b', c, t, hb', hc, hopens, hms⟩ : ∃ b' c t, IsBlanks b' ∧
      (c = ',' ∨ c = ']' ∨ c = '\x7d') ∧ Opens name v (cs ++ rest) (b' ++ c :: t) ∧
      (ms ≠ [] → c = ',') := by
    cases ms with
    | nil =>
      obtain ⟨b', hb', hopens⟩ := hcs.opens_only
      have hopens := hopens.append rest
      rw [List.append_assoc] at hopens
      exact ⟨b', _, _, hb', Or.inr (Or.inr rfl), hopens, fun hms => absurd rfl hms⟩
    | cons m ms =>
      obtain ⟨b', t, hb', hopens⟩ := hcs.opens_first
      have hopens := hopens.append rest
      rw [List.append_assoc] at hopens
      exact ⟨b', _, _, hb', Or.inl rfl, hopens, fun _ => rfl⟩
  cases hval : value? name with
  | none => exact ⟨_, variantObject_of_unknown hopens (by rw [hval]; rfl)⟩
  | some a =>
    by_cases hv : v = .null
    · -- The name and its value are right, so there is a second member.
      subst hv
      have hmore : ms ≠ [] := by
        rintro rfl
        exact absurd (hval.symm.trans h) nofun
      obtain rfl := hms hmore
      rw [variantObject_of_read hopens (by rw [hval]; rfl) (ended_behind hb' hc) (reads_nothing a)]
      exact ⟨_, endVariant_of_comma hb' a⟩
    · exact variantObject_of_refused hopens (by rw [hval]; rfl) (ended_behind hb' hc)
        (refuses_something a hv)

end Plain

theorem refuses_plainEmpty (value? : String → Option α) :
    Refuses (plainVariant value?) (.object []) := by
  intro b cs rest hb hcs _
  rw [plainVariant_object hb hcs]
  cases hcs with
  | @emptyObject b' hb' =>
    have hname : memberName (b' ++ '\x7d' :: rest) = .error .malformed := by
      unfold memberName
      rw [bind_of_read _ (valueStart_behind hb' rfl)]
      rfl
    unfold variantObject
    rw [List.cons_append, List.append_assoc, bind_of_read _ (advance_cons _ _)]
    exact ⟨_, bind_of_fault _ hname⟩
  | object _ hms _ => cases hms

/-- **A variant** that carries nothing. -/
theorem decodes_plainVariant (value? : String → Option α) :
    Decodes (plainVariant value?) (Json.plain? value?) where
  reads v a h := by
    unfold Json.plain? at h
    split at h
    · intro b cs rest hb hcs _
      rw [plainVariant_string hb hcs, h]
      rfl
    · exact reads_plainObject h
    · cases h
  refuses v h := by
    cases v with
    | string name =>
      intro b cs rest hb hcs _
      rw [plainVariant_string hb hcs, show value? name = none from h]
      exact ⟨_, rfl⟩
    | object ms =>
      cases ms with
      | nil => exact refuses_plainEmpty value?
      | cons m ms => exact refuses_plainObject h
    | _ =>
      refine refuses_of_begins fun c hc => ?_
      split
      · obtain ⟨s, hs⟩ := hc.toldBy
        cases hs
      · obtain ⟨ms, hms⟩ := hc.toldBy
        cases hms
      · exact fails_fail _

end JsonText
end Datalog
