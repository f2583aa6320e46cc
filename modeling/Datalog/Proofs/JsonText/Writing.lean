import Datalog.JsonText.Writer
import Datalog.Proofs.JsonText.Grammar
import Mathlib.Data.List.Forall2

/-!
# What is written spells what is meant

Writing chooses one of the spellings of a value: no blanks, no escapes but those that are needed,
and no point and no exponent in a number.  So whatever is true of every spelling is true of what is
written.

* `writeString_spelled`, `writeCount_spelled`, `writeBoolean_spelled`: the plain values.
* `writeArray_spelled`, `writeObject_spelled`: what is put together from values that are written.
* `digitsValue_writeCount`: the digits of a count have the count as their value.
-/

namespace Datalog
namespace JsonText

/-! ## Strings -/

/-- A control character has a number of two hexadecimal digits. -/
theorem spellsCode_of_lt {n : Nat} (h : n < 0x20) :
    SpellsCode n ['0', '0', Nat.digitChar (n / 16), Nat.digitChar (n % 16)] := by
  have hdigits := SpellsCode.digits (.lower (n := 0) (by decide)) (.lower (n := 0) (by decide))
    (.lower (show n / 16 < 16 by omega)) (.lower (Nat.mod_lt n (by decide)))
  rwa [show 0 * 4096 + 0 * 256 + n / 16 * 16 + n % 16 = n by omega] at hdigits

theorem escape_spelled (c : Char) : SpellsChar c (escape c) := by
  unfold escape
  split
  · exact .letter (by decide)
  · exact .letter (by decide)
  · exact .letter (by decide)
  · exact .letter (by decide)
  · exact .letter (by decide)
  · exact .letter (by decide)
  · exact .letter (by decide)
  · next hquote hbackslash _ _ _ _ _ =>
    split
    · next hcontrol => exact .code (spellsCode_of_lt hcontrol)
    · next hcontrol => exact .itself hquote hbackslash (Nat.le_of_not_lt hcontrol)

theorem flatMap_escape_spelled (cs : List Char) : SpellsChars cs (cs.flatMap escape) := by
  induction cs with
  | nil => exact .nil
  | cons c cs ih => exact .cons (escape_spelled c) ih

theorem writeString_spelled (s : String) : SpellsString s (writeString s) :=
  .quoted (flatMap_escape_spelled s.toList)

/-! ## Counts -/

theorem digitsValue_writeCount (n : Nat) : digitsValue (writeCount n) = n := by
  calc digitsValue (writeCount n) = Nat.ofDigitChars 10 (Nat.toDigits 10 n) 0 := by
        rw [Nat.ofDigitChars_eq_foldl]
        exact congrArg (fun f => (Nat.toDigits 10 n).foldl f 0)
          (funext fun k => funext fun d => by rw [Nat.mul_comm k 10]; rfl)
    _ = n := Nat.ofDigitChars_ten_toDigits

/-- Only the digits of zero begin with a zero. -/
theorem head?_toDigits (n : Nat) (h : (Nat.toDigits 10 n).head? = some '0') : n = 0 := by
  induction n using Nat.strongRecOn with
  | ind n ih =>
    rw [Nat.toDigits_eq_if (by decide)] at h
    split at h
    · exact Nat.digitChar_eq_zero.mp (Option.some.inj h)
    · next hten =>
      have hhead : (Nat.toDigits 10 (n / 10)).head? = some '0' := by
        rwa [List.head?_append_of_ne_nil _ Nat.toDigits_ne_nil] at h
      exact absurd (ih (n / 10) (by omega) hhead) (by omega)

theorem isWhole_writeCount (n : Nat) : IsWhole (writeCount n) where
  nonempty := Nat.toDigits_ne_nil
  digit _ hd := Nat.isDigit_of_mem_toDigits (by decide) (by decide) hd
  zero h := by
    obtain rfl := head?_toDigits n h
    rfl

/-- The value that a count is written as. -/
def Json.count (n : Nat) : Json := number false ⟨writeCount n, none, none⟩

theorem writeCount_spelled (n : Nat) : Spells (.value (.count n)) (writeCount n) := by
  have h : SpellsNumeral ⟨writeCount n, none, none⟩ (writeCount n ++ ([] ++ [])) :=
    .parts (isWhole_writeCount n) .none .none
  rw [List.append_nil, List.append_nil] at h
  exact .number h

/-! ## Words -/

theorem writeBoolean_spelled (b : Bool) : Spells (.value (.boolean b)) (writeBoolean b) := by
  cases b with
  | false => exact .no
  | true => exact .yes

/-- The value that is written if there may be none. -/
def Json.optional {α : Type} (json : α → Json) : Option α → Json
  | none => null
  | some a => json a

theorem writeOptional_spelled {α : Type} {json : α → Json} {write : α → List Char}
    (h : ∀ a, Spells (.value (json a)) (write a)) (a? : Option α) :
    Spells (.value (.optional json a?)) (writeOptional write a?) := by
  cases a? with
  | none => exact .null
  | some a => exact h a

/-! ## Arrays and objects -/

theorem withCommas_elements {vs : List Json} {ts : List (List Char)}
    (h : List.Forall₂ (fun v t => Spells (.value v) t) vs ts) (hne : vs ≠ []) :
    Spells (.elements vs) (withCommas ts) := by
  induction h with
  | nil => exact absurd rfl hne
  | cons hv hvs ih =>
    cases hvs with
    | nil => exact .lastElement hv
    | cons hw hws => exact .element hv .nil .nil (ih (List.cons_ne_nil _ _))

theorem writeArray_spelled {vs : List Json} {ts : List (List Char)}
    (h : List.Forall₂ (fun v t => Spells (.value v) t) vs ts) :
    Spells (.value (.array vs)) (writeArray ts) := by
  cases h with
  | nil => exact .emptyArray .nil
  | cons hv hvs =>
    exact .array .nil (withCommas_elements (.cons hv hvs) (List.cons_ne_nil _ _)) .nil

theorem writeArray_map_spelled {α : Type} {json : α → Json} {write : α → List Char}
    (h : ∀ a, Spells (.value (json a)) (write a)) (as : List α) :
    Spells (.value (.array (as.map json))) (writeArray (as.map write)) := by
  refine writeArray_spelled (List.forall₂_map_left_iff.mpr (List.forall₂_map_right_iff.mpr ?_))
  exact List.forall₂_same.mpr fun a _ => h a

/-- The member is written as a name and a text. -/
def WritesMember (m : String × Json) (t : String × List Char) : Prop :=
  m.1 = t.1 ∧ Spells (.value m.2) t.2

theorem WritesMember.spelled {m : String × Json} {t : String × List Char} (h : WritesMember m t) :
    Spells (.member m.1 m.2) (writeString t.1 ++ ':' :: t.2) := by
  rw [← h.1]
  exact .member (writeString_spelled m.1) .nil .nil h.2

theorem withCommas_members {ms : List (String × Json)} {ts : List (String × List Char)}
    (h : List.Forall₂ WritesMember ms ts) (hne : ms ≠ []) :
    Spells (.members ms) (withCommas (ts.map fun t => writeString t.1 ++ ':' :: t.2)) := by
  induction h with
  | nil => exact absurd rfl hne
  | cons hm hms ih =>
    cases hms with
    | nil => exact .lastMember hm.spelled
    | cons _ _ => exact .moreMembers hm.spelled .nil .nil (ih (List.cons_ne_nil _ _))

theorem writeObject_spelled {ms : List (String × Json)} {ts : List (String × List Char)}
    (h : List.Forall₂ WritesMember ms ts) :
    Spells (.value (.object ms)) (writeObject ts) := by
  cases h with
  | nil => exact .emptyObject .nil
  | cons hm hms =>
    exact .object .nil (withCommas_members (.cons hm hms) (List.cons_ne_nil _ _)) .nil

theorem Spells.text {v : Json} {cs : List Char} (h : Spells (.value v) cs) : SpellsText v cs :=
  ⟨[], cs, [], .nil, h, .nil, (List.append_nil cs).symm⟩

end JsonText
end Datalog
