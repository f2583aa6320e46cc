import Datalog.Proofs.JsonText.Skipping

/-!
# What decoders do with the spellings of a value

Whether a decoder reads a value, and what it gives, depends on the value and not on its spelling.
So a decoder is described by the values that it reads and those that it refuses, and the description
of a compound decoder is put together from those of its parts.

* `Gives d v a?`: from any spelling of the value `v`, the decoder `d` gives `a?`, or it fails if
  that is nothing.  `Reads d v a` and `Refuses d v` are the two cases.
* `Decodes d f`: on every value the decoder gives what the function `f` says.
* `decodes_boolean`, `decodes_null`, `decodes_count`, `Decodes.optional`: the plain values.
* `Reads.decode`, `Refuses.decode`: whole texts.

## Why refusing is described as well

A value of the wrong shape is noticed where it begins, or, if it is a word, at its end.  So it takes
a look at the first character, and not at the whole spelling, to know that a decoder fails; and what
fails on a value fails in whatever the value is a part of.
-/

namespace Datalog
namespace JsonText

variable {α β : Type}

/-- A decoder gives this result and leaves this text, or it fails if there is no result. -/
def Yields (x : Except Fault (α × List Char)) (rest : List Char) : Option α → Prop
  | some a => x = .ok (a, rest)
  | none => ∃ e, x = .error e

/-- What the decoder makes of any spelling of a value, wherever it stands. -/
def Gives (d : Decoder α) (v : Json) (a? : Option α) : Prop :=
  ∀ b cs rest, IsBlanks b → Spells (.value v) cs → Ended rest →
    Yields (d (b ++ (cs ++ rest))) rest a?

/-- From any spelling of a value the decoder gives this result, and leaves what follows. -/
abbrev Reads (d : Decoder α) (v : Json) (a : α) : Prop := Gives d v (some a)

/-- On any spelling of a value the decoder fails. -/
abbrev Refuses (d : Decoder α) (v : Json) : Prop := Gives d v none

/-- The decoder reads the values for which the function has a result, and refuses all others. -/
structure Decodes (d : Decoder α) (f : Json → Option α) : Prop where
  reads : ∀ v a, f v = some a → Reads d v a
  refuses : ∀ v, f v = none → Refuses d v

theorem Decodes.gives {d : Decoder α} {f : Json → Option α} (h : Decodes d f) (v : Json) :
    Gives d v (f v) := by
  cases hv : f v with
  | none => exact h.refuses v hv
  | some a => exact h.reads v a hv

theorem Decodes.of_gives {d : Decoder α} {f : Json → Option α} (h : ∀ v, Gives d v (f v)) :
    Decodes d f where
  reads v _ hv := hv.subst (h v)
  refuses v hv := hv.subst (h v)

/-- Nothing more is read behind the value. -/
theorem Reads.bind {d : Decoder α} {v : Json} {a : α} (h : Reads d v a) {f : α → Decoder β} {b : β}
    (hf : f a = pure b) : Reads (d >>= f) v b := by
  intro bl cs rest hbl hcs hrest
  show (d >>= f) _ = _
  rw [bind_of_read _ (h bl cs rest hbl hcs hrest), hf]
  rfl

theorem Gives.map {d : Decoder α} {v : Json} {a? : Option α} (h : Gives d v a?) (f : α → β) :
    Gives (f <$> d) v (a?.map f) := by
  rw [← bind_pure_comp]
  cases a? with
  | some a => exact Reads.bind h rfl
  | none =>
    intro b cs rest hb hcs hrest
    obtain ⟨e, he⟩ := h b cs rest hb hcs hrest
    exact ⟨e, bind_of_fault _ he⟩

/-- The decoder fails on every text. -/
def Fails (d : Decoder α) : Prop := ∀ cs, ∃ e, d cs = .error e

theorem Fails.refuses {d : Decoder α} (h : Fails d) (v : Json) : Refuses d v :=
  fun _ _ _ _ _ _ => h _

theorem fails_fail (e : Fault) : Fails (fail e : Decoder α) := fun _ => ⟨e, rfl⟩

theorem Fails.behind {d : Decoder α} {f : α → Decoder β} (h : ∀ a, Fails (f a)) :
    Fails (d >>= f) := by
  intro cs
  cases hd : d cs with
  | error e => exact ⟨e, bind_of_fault f hd⟩
  | ok p =>
    obtain ⟨a, rest⟩ := p
    rw [bind_of_read f hd]
    exact h a rest

/-- A value of the wrong shape is refused, whatever it is. -/
theorem fails_wrongShape : Fails (wrongShape : Decoder α) := by
  unfold wrongShape
  refine Fails.behind fun c => ?_
  split
  · exact Fails.behind fun _ => fails_fail _
  · exact Fails.behind fun _ => fails_fail _
  · exact Fails.behind fun _ => fails_fail _
  · exact Fails.behind fun _ => Fails.behind fun _ => fails_fail _
  · exact fails_fail _
  · exact fails_fail _
  · split
    · exact Fails.behind fun _ => fails_fail _
    · exact Fails.behind fun _ => fails_fail _

/-! ## Plain values -/

/-- A value is told apart by the first character of its spelling. -/
theorem exists_valueStart {v : Json} {cs : List Char} (h : Spells (.value v) cs) :
    ∃ c, v.Begins c ∧ ∀ {α : Type} (f : Char → Decoder α) (b rest : List Char), IsBlanks b →
      (valueStart >>= f) (b ++ (cs ++ rest)) = f c (cs ++ rest) := by
  obtain ⟨c, t, rfl, hc⟩ := h.exists_cons
  exact ⟨c, hc, fun f b rest hb => bind_of_read f (valueStart_behind hb hc.isBlank)⟩

/-- A decoder that has no use for any first character of the value refuses it. -/
theorem refuses_of_begins {v : Json} {f : Char → Decoder α} (h : ∀ c, v.Begins c → Fails (f c)) :
    Refuses (valueStart >>= f) v := by
  intro b cs rest hb hcs _
  obtain ⟨c, hc, hstart⟩ := exists_valueStart hcs
  rw [hstart f b rest hb]
  exact h c hc _

theorem reads_string (s : String) : Reads string (.string s) s := by
  intro b cs rest hb hcs _
  cases hcs with
  | string hs => exact string_behind hb hs rest

/-- The value of one of the words `true` and `false`. -/
def Json.boolean? : Json → Option Bool
  | boolean b => some b
  | _ => none

theorem decodes_boolean : Decodes boolean Json.boolean? where
  reads v b h := by
    cases v with
    | boolean b' =>
      obtain rfl := Option.some.inj h
      intro bl cs rest hb hcs _
      cases hcs with
      | yes =>
        show boolean (bl ++ 't' :: ("rue".toList ++ rest)) = _
        unfold boolean
        rw [bind_of_read _ (valueStart_behind hb rfl)]
        exact bind_of_read _ (pass_word "true".toList rest)
      | no =>
        show boolean (bl ++ 'f' :: ("alse".toList ++ rest)) = _
        unfold boolean
        rw [bind_of_read _ (valueStart_behind hb rfl)]
        exact bind_of_read _ (pass_word "false".toList rest)
    | _ => cases h
  refuses v h := by
    refine refuses_of_begins fun c hc => ?_
    split
    · obtain rfl : v = .boolean true := hc.toldBy
      cases h
    · obtain rfl : v = .boolean false := hc.toldBy
      cases h
    · exact fails_wrongShape

/-- Nothing but the word `null` has a value. -/
def Json.null? : Json → Option Unit
  | null => some ()
  | _ => none

theorem decodes_null : Decodes null Json.null? where
  reads v u h := by
    cases v with
    | null =>
      intro bl cs rest hb hcs _
      cases hcs with
      | null =>
        show JsonText.null (bl ++ 'n' :: ("ull".toList ++ rest)) = _
        unfold JsonText.null
        rw [bind_of_read _ (valueStart_behind hb rfl)]
        exact pass_word "null".toList rest
    | _ => cases h
  refuses v h := by
    refine refuses_of_begins fun c hc => ?_
    split
    · obtain rfl : v = .null := hc.toldBy
      cases h
    · exact fails_wrongShape

/-- The value of an unsigned integer literal of at most 64 bits. -/
def Json.natural? : Json → Option Nat
  | number false ⟨ds, none, none⟩ => if digitsValue ds < 2 ^ 64 then some (digitsValue ds) else none
  | _ => none

theorem natural?_number (n : Numeral) : Json.natural? (.number false n) = n.count? := by
  obtain ⟨ds, fraction, exponent⟩ := n
  cases fraction <;> cases exponent <;> rfl

theorem readNumber_spelled {n : Numeral} {cs rest : List Char} (h : SpellsNumeral n cs)
    (hrest : Ended rest) :
    readNumber (cs ++ rest) =
        (if n.isTooLarge then .error .malformed else .ok (n.count?, rest)) ∧
      readNumber ('-' :: (cs ++ rest)) =
        if n.isTooLarge then .error .malformed else .ok (none, rest) := by
  have hread := readNumeral_spelled true h hrest.endsNumeral
  obtain ⟨c, t, rfl, hc⟩ := h.exists_cons
  have hsign : c ≠ '-' := by rintro rfl; cases hc
  constructor
  · unfold readNumber
    rw [List.cons_append] at hread ⊢
    split
    next negative cs' hsplit =>
      split at hsplit
      · next heq => exact absurd (List.cons.inj heq).1 hsign
      · cases hsplit
        rw [hread]
        rfl
  · show (readNumeral true (c :: t ++ rest) >>= fun x =>
      if x.1.isTooLarge then .error .malformed else .ok (none, x.2)) = _
    rw [hread]
    rfl

theorem startsNumber_of_begins {c : Char} (h : c = '-' ∨ c.isDigit = true) :
    startsNumber c = true := by
  unfold startsNumber
  simpa using h

theorem Json.Begins.not_startsNumber {v : Json} {c : Char} (h : v.Begins c)
    (hv : ∀ negative n, v ≠ .number negative n) : startsNumber c = false := by
  cases v with
  | boolean b => cases b <;> cases h <;> rfl
  | number negative n => exact absurd rfl (hv negative n)
  | _ => cases h; rfl

/-- A count is read by reading a number. -/
theorem count_number {negative : Bool} {n : Numeral} {b cs rest : List Char} (hb : IsBlanks b)
    (hcs : Spells (.value (.number negative n)) cs) :
    count (b ++ (cs ++ rest)) =
      (word readNumber >>= fun x => required x) (cs ++ rest) := by
  obtain ⟨c, hc, hstart⟩ := exists_valueStart hcs
  unfold count
  rw [hstart _ b rest hb, if_pos (startsNumber_of_begins hc)]
  refine congrFun (congrArg (word readNumber >>= ·) (funext fun x => ?_)) _
  cases x <;> rfl

/-- What is read from the spelling of a number in range is the count that the number is, if any. -/
theorem readNumber_number {negative : Bool} {n : Numeral} {cs rest : List Char}
    (hcs : Spells (.value (.number negative n)) cs) (hrest : Ended rest) :
    readNumber (cs ++ rest) =
      if n.isTooLarge then .error .malformed
      else .ok (Json.natural? (.number negative n), rest) := by
  cases hcs with
  | number hn =>
    rw [natural?_number]
    exact (readNumber_spelled hn hrest).1
  | negative hn => exact (readNumber_spelled hn hrest).2

theorem isTooLarge_of_natural? {negative : Bool} {n : Numeral} {k : Nat}
    (h : Json.natural? (.number negative n) = some k) : n.isTooLarge = false := by
  unfold Json.natural? at h
  split at h
  · next ds heq =>
    cases heq
    split at h
    · next hsmall => exact Numeral.isTooLarge_of_lt hsmall
    · cases h
  · cases h

/-- On a number, reading a count gives what is read, provided that it is a count. -/
theorem gives_count_number (negative : Bool) (n : Numeral) :
    Gives count (.number negative n) (Json.natural? (.number negative n)) := by
  intro b cs rest hb hcs hrest
  have hread := readNumber_number hcs hrest
  rw [count_number hb hcs]
  cases hk : Json.natural? (.number negative n) with
  | some k =>
    rw [isTooLarge_of_natural? hk, hk] at hread
    exact bind_of_read _ hread
  | none =>
    rw [hk] at hread
    cases hlarge : n.isTooLarge with
    | true =>
      rw [hlarge] at hread
      exact ⟨_, bind_of_fault _ hread⟩
    | false =>
      rw [hlarge] at hread
      exact ⟨_, bind_of_read _ hread⟩

theorem decodes_count : Decodes count Json.natural? := .of_gives fun v => by
  cases v with
  | number negative n => exact gives_count_number negative n
  | _ =>
    refine refuses_of_begins fun c hc => ?_
    rw [if_neg (by rw [hc.not_startsNumber nofun]; decide)]
    exact fails_wrongShape

/-- What a function says, and `null` besides. -/
def Json.orNull (f : Json → Option α) : Json → Option (Option α)
  | null => some none
  | v => (f v).map some

theorem Json.orNull_of_ne_null {f : Json → Option α} {v : Json} (hv : v ≠ .null) :
    Json.orNull f v = (f v).map some := by
  cases v with
  | null => exact absurd rfl hv
  | _ => rfl

theorem optional_of_ne_null {d : Decoder α} {v : Json} (hv : v ≠ .null) {b cs rest : List Char}
    (hb : IsBlanks b) (hcs : Spells (.value v) cs) :
    optional d (b ++ (cs ++ rest)) = (some <$> d) (cs ++ rest) := by
  obtain ⟨c, t, rfl, hc⟩ := hcs.exists_cons
  unfold optional
  rw [List.cons_append, bind_of_read _ (peek_behind hb hc.isBlank)]
  generalize hnext : some c = next
  split
  · cases hnext
    exact absurd hc.toldBy hv
  · rfl

theorem Decodes.optional {d : Decoder α} {f : Json → Option α} (h : Decodes d f) :
    Decodes (optional d) (Json.orNull f) where
  reads v a ha := by
    intro b cs rest hb hcs hrest
    by_cases hv : v = .null
    · subst hv
      obtain rfl := Option.some.inj ha
      cases hcs with
      | null =>
        show JsonText.optional d (b ++ 'n' :: ("ull".toList ++ rest)) = _
        unfold JsonText.optional
        rw [bind_of_read _ (peek_behind hb rfl)]
        exact bind_of_read _ (pass_word "null".toList rest)
    · rw [Json.orNull_of_ne_null hv] at ha
      obtain ⟨a', ha', rfl⟩ := Option.map_eq_some_iff.mp ha
      rw [optional_of_ne_null hv hb hcs]
      exact ((h.reads v a' ha').map some) [] cs rest .nil hcs hrest
  refuses v hnone := by
    intro b cs rest hb hcs hrest
    have hv : v ≠ .null := by rintro rfl; cases hnone
    rw [Json.orNull_of_ne_null hv, Option.map_eq_none_iff] at hnone
    rw [optional_of_ne_null hv hb hcs]
    exact ((h.refuses v hnone).map some) [] cs rest .nil hcs hrest

/-! ## Whole texts -/

theorem Reads.decode {d : Decoder α} {v : Json} {a : α} (h : Reads d v a) {text : String}
    (htext : SpellsText v text.toList) : decode d text = .ok a := by
  obtain ⟨b, cs, b', hb, hcs, hb', heq⟩ := htext
  have hread : d (b ++ (cs ++ b')) = .ok (a, b') := h b cs b' hb hcs (ended_of_isBlanks hb')
  unfold JsonText.decode
  rw [heq, hread]
  show (if skipBlanks b' = [] then pure a else .error .malformed : Except Fault α) = _
  rw [if_pos (skipBlanks_of_isBlanks hb')]
  rfl

theorem Refuses.decode {d : Decoder α} {v : Json} (h : Refuses d v) {text : String}
    (htext : SpellsText v text.toList) : ∃ e, decode d text = .error e := by
  obtain ⟨b, cs, b', hb, hcs, hb', heq⟩ := htext
  obtain ⟨e, he⟩ := h b cs b' hb hcs (ended_of_isBlanks hb')
  unfold JsonText.decode
  rw [heq, he]
  exact ⟨e, rfl⟩

end JsonText
end Datalog
