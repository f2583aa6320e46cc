import Datalog.JsonText.Decoder
import Datalog.Proofs.JsonText.Grammar
import Mathlib.Tactic.IntervalCases

/-!
# The words of JSON texts are read as they are spelled

Whatever spelling of a string or a number stands at the beginning of a text, reading gives the
string or the parts of the number, skipping gives nothing, and both leave what follows.

* `readString_spelled`, `skipString_spelled`: strings behind their opening quotes.
* `readNumeral_spelled`: numbers without their signs, provided that they end where they should.
* `Ended`: what may follow a value.
* `Numeral.isTooLarge_of_lt`: no number that counts something is out of range.
-/

namespace Datalog
namespace JsonText

/-! ## Strings -/

theorem hexDigit?_spelled {n : Nat} {c : Char} (h : IsHexDigit n c) : hexDigit? c = some n := by
  cases h with
  | lower hn => interval_cases n <;> rfl
  | upper hn => interval_cases n <;> rfl

theorem SpellsCode.exists_digits {n : Nat} {ds : List Char} (h : SpellsCode n ds) :
    ∃ a b c d, ds = [a, b, c, d] ∧ hexValue? a b c d = some n := by
  cases h with
  | @digits h i j k a b c d ha hb hc hd =>
    refine ⟨a, b, c, d, rfl, ?_⟩
    unfold hexValue?
    rw [hexDigit?_spelled ha, hexDigit?_spelled hb, hexDigit?_spelled hc, hexDigit?_spelled hd]
    rfl

theorem mem_letterEscapes {l c : Char} (h : (l, c) ∈ letterEscapes) :
    (l = '"' ∧ c = '"') ∨ (l = '\\' ∧ c = '\\') ∨ (l = '/' ∧ c = '/') ∨ (l = 'b' ∧ c = '\x08') ∨
      (l = 'f' ∧ c = '\x0c') ∨ (l = 'n' ∧ c = '\n') ∨ (l = 'r' ∧ c = '\r') ∨
      (l = 't' ∧ c = '\t') := by
  simpa [letterEscapes] using h

/-- No character is half of a surrogate pair. -/
theorem not_isSurrogate (c : Char) :
    isHighSurrogate c.toNat = false ∧ isLowSurrogate c.toNat = false := by
  have hc := c.valid
  unfold isHighSurrogate isLowSurrogate
  simp only [Bool.and_eq_false_iff, decide_eq_false_iff_not]
  have hvalid : c.toNat < 0xD800 ∨ (0xDFFF < c.toNat ∧ c.toNat < 0x110000) := hc
  omega

/-- The halves of a pair, put together again. -/
theorem pairChar_eq {c : Char} {n : Nat} (h : c.toNat = 0x10000 + n) :
    pairChar (0xD800 + n / 0x400) (0xDC00 + n % 0x400) = c := by
  have hn : (0xD800 + n / 0x400 - 0xD800) * 0x400 + (0xDC00 + n % 0x400 - 0xDC00) + 0x10000 =
      c.toNat := by omega
  unfold pairChar
  rw [hn, Char.ofNat_toNat]

theorem isSurrogate_halves {c : Char} {n : Nat} (h : c.toNat = 0x10000 + n) :
    isLowSurrogate (0xD800 + n / 0x400) = false ∧ isHighSurrogate (0xD800 + n / 0x400) = true ∧
      isLowSurrogate (0xDC00 + n % 0x400) = true := by
  have hc : c.toNat < 0x110000 := by
    rcases c.valid with hlow | ⟨-, hhigh⟩
    · exact Nat.lt_trans hlow (by decide)
    · exact hhigh
  unfold isHighSurrogate isLowSurrogate
  simp only [Bool.and_eq_true, Bool.and_eq_false_iff, decide_eq_true_eq, decide_eq_false_iff_not]
  omega

/-- **A character** is read from any of its spellings. -/
theorem readString_char {c : Char} {ts : List Char} (h : SpellsChar c ts) (rest : List Char) :
    readString (ts ++ rest) = consChar c (readString rest) := by
  cases h with
  | itself hquote hback hcontrol =>
    have hplain : ¬ c.toNat < 0x20 := Nat.not_lt.mpr hcontrol
    rw [List.singleton_append, readString.eq_def]
    split <;> simp_all
  | letter hl =>
    rcases mem_letterEscapes hl with ⟨rfl, rfl⟩ | ⟨rfl, rfl⟩ | ⟨rfl, rfl⟩ | ⟨rfl, rfl⟩ |
      ⟨rfl, rfl⟩ | ⟨rfl, rfl⟩ | ⟨rfl, rfl⟩ | ⟨rfl, rfl⟩ <;> rfl
  | code hds =>
    obtain ⟨a, b, d, e, rfl, hvalue⟩ := hds.exists_digits
    obtain ⟨hhigh, hlow⟩ := not_isSurrogate c
    show readString ('\\' :: 'u' :: a :: b :: d :: e :: rest) = _
    rw [readString, hvalue]
    simp [hhigh, hlow]
  | @pair c n ds es hn hds hes =>
    obtain ⟨a, b, d, e, rfl, hhighValue⟩ := hds.exists_digits
    obtain ⟨f, g, i, j, rfl, hlowValue⟩ := hes.exists_digits
    obtain ⟨hlow, hhigh, hlow'⟩ := isSurrogate_halves hn
    show readString ('\\' :: 'u' :: a :: b :: d :: e :: '\\' :: 'u' :: f :: g :: i :: j :: rest) = _
    rw [readString, hhighValue]
    simp only [hlow, hhigh, hlowValue, hlow', if_true, Bool.false_eq_true, if_false]
    rw [pairChar_eq hn]

theorem skipString_char {c : Char} {ts : List Char} (h : SpellsChar c ts) (rest : List Char) :
    skipString (ts ++ rest) = skipString rest := by
  cases h with
  | itself hquote hback hcontrol =>
    have hplain : ¬ c.toNat < 0x20 := Nat.not_lt.mpr hcontrol
    rw [List.singleton_append, skipString.eq_def]
    split <;> simp_all
  | letter hl =>
    rcases mem_letterEscapes hl with ⟨rfl, rfl⟩ | ⟨rfl, rfl⟩ | ⟨rfl, rfl⟩ | ⟨rfl, rfl⟩ |
      ⟨rfl, rfl⟩ | ⟨rfl, rfl⟩ | ⟨rfl, rfl⟩ | ⟨rfl, rfl⟩ <;> rfl
  | code hds =>
    obtain ⟨a, b, d, e, rfl, hvalue⟩ := hds.exists_digits
    show skipString ('\\' :: 'u' :: a :: b :: d :: e :: rest) = _
    rw [skipString, hvalue]
  | @pair c n ds es hn hds hes =>
    obtain ⟨a, b, d, e, rfl, hhighValue⟩ := hds.exists_digits
    obtain ⟨f, g, i, j, rfl, hlowValue⟩ := hes.exists_digits
    show skipString ('\\' :: 'u' :: a :: b :: d :: e :: '\\' :: 'u' :: f :: g :: i :: j :: rest) = _
    rw [skipString, hhighValue]
    simp only
    rw [skipString, hlowValue]

/-- **A string** is read from any of its spellings. -/
theorem readString_spelled {cs ts : List Char} (h : SpellsChars cs ts) (rest : List Char) :
    readString (ts ++ '"' :: rest) = .ok (cs, rest) := by
  induction h with
  | nil => rfl
  | cons hc _ ih => rw [List.append_assoc, readString_char hc, ih, consChar]

theorem skipString_spelled {cs ts : List Char} (h : SpellsChars cs ts) (rest : List Char) :
    skipString (ts ++ '"' :: rest) = .ok rest := by
  induction h with
  | nil => rfl
  | cons hc _ ih => rw [List.append_assoc, skipString_char hc, ih]

/-! ## Numbers -/

/-- What may follow a value: nothing, a blank, a comma or a closing bracket. -/
def Ended (rest : List Char) : Prop :=
  ∀ c ∈ rest.head?, isBlank c = true ∨ c = ',' ∨ c = ']' ∨ c = '\x7d'

/-- No digit follows. -/
def EndsDigits (rest : List Char) : Prop := ∀ c ∈ rest.head?, c.isDigit = false

/-- Neither a digit nor a point follows. -/
def EndsFraction (rest : List Char) : Prop := ∀ c ∈ rest.head?, c.isDigit = false ∧ c ≠ '.'

/-- Nothing follows that could be part of a number. -/
def EndsNumeral (rest : List Char) : Prop :=
  ∀ c ∈ rest.head?, c.isDigit = false ∧ c ≠ '.' ∧ c ≠ 'e' ∧ c ≠ 'E'

theorem Ended.endsNumeral {rest : List Char} (h : Ended rest) : EndsNumeral rest := by
  intro c hc
  rcases h c hc with hblank | rfl | rfl | rfl
  · simp only [isBlank, Bool.or_eq_true, decide_eq_true_eq] at hblank
    rcases hblank with ((rfl | rfl) | rfl) | rfl <;> decide
  · decide
  · decide
  · decide

theorem EndsNumeral.endsDigits {rest : List Char} (h : EndsNumeral rest) : EndsDigits rest :=
  fun c hc => (h c hc).1

theorem EndsFraction.endsDigits {rest : List Char} (h : EndsFraction rest) : EndsDigits rest :=
  fun c hc => (h c hc).1

theorem SpellsExponent.endsFraction {exponent : Option (Bool × List Char)} {es rest : List Char}
    (h : SpellsExponent exponent es) (hrest : EndsNumeral rest) : EndsFraction (es ++ rest) := by
  cases h with
  | none => exact fun c hc => ⟨(hrest c hc).1, (hrest c hc).2.1⟩
  | some hletter _ _ =>
    intro c hc
    rcases hletter with rfl | rfl
    · cases hc; decide
    · cases hc; decide

theorem SpellsFraction.endsDigits {fraction : Option (List Char)} {fs rest : List Char}
    (h : SpellsFraction fraction fs) (hrest : EndsFraction rest) : EndsDigits (fs ++ rest) := by
  cases h with
  | none => exact hrest.endsDigits
  | some _ =>
    intro c hc
    cases hc
    decide

variable (cutOff : Bool)

theorem someDigits_spelled {ds rest : List Char} (h : IsDigits ds) (hrest : EndsDigits rest) :
    someDigits cutOff (ds ++ rest) = .ok (ds, rest) := by
  have hnone : rest.takeWhile Char.isDigit = [] ∧ rest.dropWhile Char.isDigit = rest := by
    cases rest with
    | nil => exact ⟨rfl, rfl⟩
    | cons c rest =>
      have hc := hrest c rfl
      simp [hc]
  have hsplit : splitDigits (ds ++ rest) = (ds, rest) := by
    unfold splitDigits
    rw [List.takeWhile_append_of_pos h.digit, List.dropWhile_append_of_pos h.digit, hnone.1,
      hnone.2, List.append_nil]
  obtain ⟨d, ds', rfl⟩ := List.exists_cons_of_ne_nil h.nonempty
  unfold someDigits
  rw [hsplit]

theorem readWhole_spelled {ds rest : List Char} (h : IsWhole ds) (hrest : EndsDigits rest) :
    readWhole cutOff (ds ++ rest) = .ok (ds, rest) := by
  by_cases hzero : ds.head? = some '0'
  · rw [h.zero hzero]
    cases rest with
    | nil => rfl
    | cons c rest =>
      have hc := hrest c rfl
      show (if c.isDigit then _ else _) = _
      rw [hc]
      rfl
  · have hdigits := someDigits_spelled cutOff h.toIsDigits hrest
    rw [readWhole.eq_def]
    split
    · next heq =>
      obtain ⟨d, ds', rfl⟩ := List.exists_cons_of_ne_nil h.nonempty
      exact absurd (congrArg some (List.cons.inj heq).1) hzero
    · exact hdigits

theorem readFraction_spelled {fraction : Option (List Char)} {fs rest : List Char}
    (h : SpellsFraction fraction fs) (hrest : EndsFraction rest) :
    readFraction cutOff (fs ++ rest) = .ok (fraction, rest) := by
  cases h with
  | none =>
    rw [List.nil_append, readFraction.eq_def]
    split
    · exact absurd rfl (hrest _ rfl).2
    · rfl
  | some hds =>
    show (someDigits cutOff (_ ++ rest) >>= fun x => pure (some x.1, x.2)) = _
    rw [someDigits_spelled cutOff hds hrest.endsDigits]
    rfl

theorem readExponent_spelled {exponent : Option (Bool × List Char)} {es rest : List Char}
    (h : SpellsExponent exponent es) (hrest : EndsNumeral rest) :
    readExponent cutOff (es ++ rest) = .ok (exponent, rest) := by
  cases h with
  | none =>
    cases rest with
    | nil => rfl
    | cons c rest =>
      obtain ⟨-, -, he, hE⟩ := hrest c rfl
      simp [readExponent, he, hE]
  | @some letter negative sign ds hletter hsign hds =>
    have hdigits := someDigits_spelled cutOff hds hrest.endsDigits
    have hletter' : (letter = 'e' || letter = 'E') = true := by simpa using hletter
    cases hsign with
    | plus =>
      show readExponent cutOff (letter :: '+' :: (ds ++ rest)) = _
      rw [readExponent, if_pos hletter', hdigits]
      rfl
    | minus =>
      show readExponent cutOff (letter :: '-' :: (ds ++ rest)) = _
      rw [readExponent, if_pos hletter', hdigits]
      rfl
    | nothing =>
      -- Without a sign, what stands behind the letter is a digit.
      have hunsigned : ∀ c rest', c.isDigit = false → ds ++ rest = c :: rest' → False := by
        intro c rest' hc heq
        obtain ⟨d, ds', rfl⟩ := List.exists_cons_of_ne_nil hds.nonempty
        rw [(List.cons.inj heq).1.symm] at hc
        rw [hds.digit d List.mem_cons_self] at hc
        cases hc
      show readExponent cutOff (letter :: (ds ++ rest)) = _
      rw [readExponent, if_pos hletter', hdigits]
      · rfl
      · exact fun rest' => hunsigned '+' rest' rfl
      · exact fun rest' => hunsigned '-' rest' rfl

/-- **A number** is read from any of its spellings, up to its end. -/
theorem readNumeral_spelled {n : Numeral} {cs rest : List Char} (h : SpellsNumeral n cs)
    (hrest : EndsNumeral rest) : readNumeral cutOff (cs ++ rest) = .ok (n, rest) := by
  cases h with
  | @parts fs es hwhole hfraction hexponent =>
    have hends := hexponent.endsFraction hrest
    have hfirst := readWhole_spelled cutOff hwhole (hfraction.endsDigits hends)
    have hsecond := readFraction_spelled cutOff hfraction hends
    have hthird := readExponent_spelled cutOff hexponent hrest
    rw [List.append_assoc, List.append_assoc, readNumeral, hfirst]
    show (readFraction cutOff (fs ++ (es ++ rest)) >>= fun x =>
      readExponent cutOff x.2 >>= fun y => pure ((⟨n.whole, x.1, y.1⟩ : Numeral), y.2)) = _
    rw [hsecond]
    show (readExponent cutOff (es ++ rest) >>= fun y =>
      pure ((⟨n.whole, n.fraction, y.1⟩ : Numeral), y.2)) = _
    rw [hthird]
    rfl

/-! ## Counts -/

theorem le_foldl_digits (value : Nat) (ds : List Char) :
    value ≤ ds.foldl (fun n d => n * 10 + (d.toNat - 48)) value := by
  induction ds generalizing value with
  | nil => exact Nat.le_refl value
  | cons d ds ih => exact Nat.le_trans (by omega) (ih (value * 10 + (d.toNat - 48)))

/-- As long as the value stays below the limit, all digits are taken. -/
theorem leadingDigits_of_lt {value : Nat} {ds : List Char}
    (h : ds.foldl (fun n d => n * 10 + (d.toNat - 48)) value < countLimit) :
    leadingDigits value ds =
      (ds.foldl (fun n d => n * 10 + (d.toNat - 48)) value, ds.length) := by
  induction ds generalizing value with
  | nil => rfl
  | cons d ds ih =>
    have hnext : value * 10 + (d.toNat - 48) < countLimit :=
      Nat.lt_of_le_of_lt (le_foldl_digits _ ds) h
    rw [leadingDigits]
    simp only
    rw [if_pos hnext, ih h]
    rfl

/-- Rounding at most doubles a number. -/
theorem roundToBinary53_le {n : Nat} (h : n ≠ 0) : roundToBinary53 n ≤ 2 * n := by
  have hunit : Nat.pow 2 (n.log2 + 1 - 53) ≤ n :=
    Nat.le_trans (Nat.pow_le_pow_right (by decide) (by omega)) (Nat.log2_self_le h)
  unfold roundToBinary53
  simp only
  generalize Nat.pow 2 (n.log2 + 1 - 53) = unit at hunit
  have hplaces : n / unit * unit ≤ n := Nat.div_mul_le_self n unit
  split
  · rw [Nat.add_mul]
    omega
  · omega

/-- A number that counts something is not out of range. -/
theorem Numeral.isTooLarge_of_lt {ds : List Char} (h : digitsValue ds < countLimit) :
    Numeral.isTooLarge ⟨ds, none, none⟩ = false := by
  have hdigits : leadingDigits 0 (ds ++ []) = (digitsValue ds, ds.length) := by
    rw [List.append_nil]
    exact leadingDigits_of_lt h
  have hexponent : (ds.length : Int) - ds.length + 0 = 0 := by omega
  unfold Numeral.isTooLarge
  simp only [Option.getD_none, hdigits, hexponent]
  by_cases hzero : digitsValue ds = 0
  · rw [hzero]
    rfl
  · have hround : roundToBinary53 (digitsValue ds) ≤ 2 * digitsValue ds := roundToBinary53_le hzero
    have hone : roundToBinary53 (Nat.pow 10 (0 : Int).toNat) = 1 := by decide +kernel
    have hrange : 2 * countLimit ≤ overflowThreshold := by decide +kernel
    rw [hone, Nat.mul_one]
    have hsmall : ¬ overflowThreshold ≤ roundToBinary53 (digitsValue ds) := by omega
    simp [hzero, hsmall, maxTenExponent]

end JsonText
end Datalog
