import Datalog.JsonText.Lexical

/-!
# JSON values and their spellings

A JSON value can be spelled in many ways: with blanks between its words, with escapes in its
strings, with the members of its objects in the order given, and with either letter in front of an
exponent.  The grammar of JSON says which texts spell a value.  It is stated here as a relation
between values and texts, which does not know how texts are read.

* `Json`: values.
* `SpellsChar`, `SpellsString`: the spellings of a character inside a string, and of a string.
* `SpellsNumeral`: the spellings of a number without its sign.
* `Spells`: the spellings of a value, of what stands between the brackets of an array, and of what
  stands between the braces of an object; none of them begins or ends with a blank.
* `SpellsText`: a value with blanks in front of it and behind it.

## What is no value

A string consists of characters, and half of a surrogate pair is no character.  So an escape of such
a half spells nothing unless the escape of the other half stands right behind it; texts with such
an escape do not spell any value.
-/

namespace Datalog
namespace JsonText

/-- A JSON value.  Numbers are told apart by their digits, and the members of an object are given in
their order, with repeated names. -/
inductive Json where
  /-- The word `null`. -/
  | null
  /-- One of the words `true` and `false`. -/
  | boolean (b : Bool)
  /-- A number, which may have a minus sign. -/
  | number (negative : Bool) (n : Numeral)
  /-- A string. -/
  | string (s : String)
  /-- An array. -/
  | array (values : List Json)
  /-- An object. -/
  | object (members : List (String × Json))

/-- A text that consists of blanks. -/
def IsBlanks (cs : List Char) : Prop := ∀ c ∈ cs, isBlank c = true

/-! ## Strings -/

/-- A hexadecimal digit, in upper or lower case. -/
inductive IsHexDigit : Nat → Char → Prop where
  | lower {n : Nat} : n < 16 → IsHexDigit n (Nat.digitChar n)
  | upper {n : Nat} : n < 16 → IsHexDigit n (Nat.digitChar n).toUpper

/-- Four hexadecimal digits, the highest first. -/
inductive SpellsCode : Nat → List Char → Prop where
  | digits {h i j k : Nat} {a b c d : Char} : IsHexDigit h a → IsHexDigit i b → IsHexDigit j c →
      IsHexDigit k d → SpellsCode (h * 4096 + i * 256 + j * 16 + k) [a, b, c, d]

/-- The letters of escapes, and the characters that they stand for. -/
def letterEscapes : List (Char × Char) :=
  [('"', '"'), ('\\', '\\'), ('/', '/'), ('b', '\x08'), ('f', '\x0c'), ('n', '\n'), ('r', '\r'),
    ('t', '\t')]

/-- The spellings of a character inside a string. -/
inductive SpellsChar : Char → List Char → Prop where
  /-- The character itself, unless it is a quote, a backslash or a control character. -/
  | itself {c : Char} : c ≠ '"' → c ≠ '\\' → 0x20 ≤ c.toNat → SpellsChar c [c]
  /-- A backslash and a letter. -/
  | letter {l c : Char} : (l, c) ∈ letterEscapes → SpellsChar c ['\\', l]
  /-- The number of the character. -/
  | code {c : Char} {ds : List Char} : SpellsCode c.toNat ds → SpellsChar c ('\\' :: 'u' :: ds)
  /-- A surrogate pair, whose halves stand for the upper and the lower ten bits of a number. -/
  | pair {c : Char} {n : Nat} {ds es : List Char} : c.toNat = 0x10000 + n →
      SpellsCode (0xD800 + n / 0x400) ds → SpellsCode (0xDC00 + n % 0x400) es →
      SpellsChar c ('\\' :: 'u' :: (ds ++ '\\' :: 'u' :: es))

/-- The spellings of the characters of a string. -/
inductive SpellsChars : List Char → List Char → Prop where
  | nil : SpellsChars [] []
  | cons {c : Char} {cs ts us : List Char} : SpellsChar c ts → SpellsChars cs us →
      SpellsChars (c :: cs) (ts ++ us)

/-- The spellings of a string. -/
inductive SpellsString : String → List Char → Prop where
  | quoted {s : String} {cs : List Char} : SpellsChars s.toList cs →
      SpellsString s ('"' :: (cs ++ ['"']))

/-! ## Numbers -/

/-- One digit at least. -/
structure IsDigits (ds : List Char) : Prop where
  nonempty : ds ≠ []
  digit : ∀ d ∈ ds, d.isDigit = true

/-- The digits in front of the point: a zero stands alone. -/
structure IsWhole (ds : List Char) : Prop extends IsDigits ds where
  zero : ds.head? = some '0' → ds = ['0']

/-- The point and the digits behind it. -/
inductive SpellsFraction : Option (List Char) → List Char → Prop where
  | none : SpellsFraction none []
  | some {ds : List Char} : IsDigits ds → SpellsFraction (some ds) ('.' :: ds)

/-- The sign of an exponent; a plus sign may be left out. -/
inductive SpellsSign : Bool → List Char → Prop where
  | nothing : SpellsSign false []
  | plus : SpellsSign false ['+']
  | minus : SpellsSign true ['-']

/-- The exponent. -/
inductive SpellsExponent : Option (Bool × List Char) → List Char → Prop where
  | none : SpellsExponent none []
  | some {letter : Char} {negative : Bool} {sign ds : List Char} : letter = 'e' ∨ letter = 'E' →
      SpellsSign negative sign → IsDigits ds →
      SpellsExponent (some (negative, ds)) (letter :: (sign ++ ds))

/-- The spellings of a number without its sign. -/
inductive SpellsNumeral : Numeral → List Char → Prop where
  | parts {n : Numeral} {fs es : List Char} : IsWhole n.whole → SpellsFraction n.fraction fs →
      SpellsExponent n.exponent es → SpellsNumeral n (n.whole ++ (fs ++ es))

/-! ## Values -/

/-- The parts of a text that are spelled with the help of each other. -/
inductive Part where
  /-- A value. -/
  | value (v : Json)
  /-- The elements of an array that has some. -/
  | elements (vs : List Json)
  /-- A member of an object. -/
  | member (name : String) (v : Json)
  /-- The members of an object that has some. -/
  | members (ms : List (String × Json))

/-- The grammar of JSON. -/
inductive Spells : Part → List Char → Prop where
  | null : Spells (.value .null) "null".toList
  | yes : Spells (.value (.boolean true)) "true".toList
  | no : Spells (.value (.boolean false)) "false".toList
  | number {n : Numeral} {cs : List Char} : SpellsNumeral n cs →
      Spells (.value (.number false n)) cs
  | negative {n : Numeral} {cs : List Char} : SpellsNumeral n cs →
      Spells (.value (.number true n)) ('-' :: cs)
  | string {s : String} {cs : List Char} : SpellsString s cs → Spells (.value (.string s)) cs
  | emptyArray {b : List Char} : IsBlanks b → Spells (.value (.array [])) ('[' :: (b ++ [']']))
  | array {vs : List Json} {b cs b' : List Char} : IsBlanks b → Spells (.elements vs) cs →
      IsBlanks b' → Spells (.value (.array vs)) ('[' :: (b ++ (cs ++ (b' ++ [']']))))
  | emptyObject {b : List Char} : IsBlanks b →
      Spells (.value (.object [])) ('\x7b' :: (b ++ ['\x7d']))
  | object {ms : List (String × Json)} {b cs b' : List Char} : IsBlanks b →
      Spells (.members ms) cs → IsBlanks b' →
      Spells (.value (.object ms)) ('\x7b' :: (b ++ (cs ++ (b' ++ ['\x7d']))))
  | lastElement {v : Json} {cs : List Char} : Spells (.value v) cs → Spells (.elements [v]) cs
  | element {v : Json} {vs : List Json} {cs b b' ds : List Char} : Spells (.value v) cs →
      IsBlanks b → IsBlanks b' → Spells (.elements vs) ds →
      Spells (.elements (v :: vs)) (cs ++ (b ++ ',' :: (b' ++ ds)))
  | member {name : String} {v : Json} {ns b b' cs : List Char} : SpellsString name ns →
      IsBlanks b → IsBlanks b' → Spells (.value v) cs →
      Spells (.member name v) (ns ++ (b ++ ':' :: (b' ++ cs)))
  | lastMember {name : String} {v : Json} {cs : List Char} : Spells (.member name v) cs →
      Spells (.members [(name, v)]) cs
  | moreMembers {name : String} {v : Json} {ms : List (String × Json)} {cs b b' ds : List Char} :
      Spells (.member name v) cs → IsBlanks b → IsBlanks b' → Spells (.members ms) ds →
      Spells (.members ((name, v) :: ms)) (cs ++ (b ++ ',' :: (b' ++ ds)))

/-- A text that consists of a value and blanks. -/
def SpellsText (v : Json) (text : List Char) : Prop :=
  ∃ b cs b', IsBlanks b ∧ Spells (.value v) cs ∧ IsBlanks b' ∧ text = b ++ (cs ++ b')

/-! ## How spellings begin -/

theorem IsBlanks.nil : IsBlanks [] := fun _ h => absurd h List.not_mem_nil

/-- The characters that the spellings of a value may begin with. -/
def Json.Begins (c : Char) : Json → Prop
  | null => c = 'n'
  | boolean true => c = 't'
  | boolean false => c = 'f'
  | number _ _ => c = '-' ∨ c.isDigit = true
  | string _ => c = '"'
  | array _ => c = '['
  | object _ => c = '\x7b'

theorem SpellsNumeral.exists_cons {n : Numeral} {cs : List Char} (h : SpellsNumeral n cs) :
    ∃ c t, cs = c :: t ∧ c.isDigit = true := by
  cases h with
  | parts hwhole _ _ =>
    obtain ⟨c, t, hct⟩ := List.exists_cons_of_ne_nil hwhole.nonempty
    exact ⟨c, _, by rw [hct]; rfl, hwhole.digit c (by rw [hct]; exact List.mem_cons_self)⟩

/-- The characters that the spellings of a part may begin with. -/
def Part.Begins (c : Char) : Part → Prop
  | value v => v.Begins c
  | elements _ => ∃ v : Json, v.Begins c
  | member _ _ => c = '"'
  | members _ => c = '"'

theorem Spells.exists_cons {p : Part} {cs : List Char} (h : Spells p cs) :
    ∃ c t, cs = c :: t ∧ p.Begins c := by
  induction h with
  | null => exact ⟨_, _, rfl, rfl⟩
  | yes => exact ⟨_, _, rfl, rfl⟩
  | no => exact ⟨_, _, rfl, rfl⟩
  | number hn =>
    obtain ⟨c, t, rfl, hc⟩ := hn.exists_cons
    exact ⟨c, t, rfl, Or.inr hc⟩
  | negative hn => exact ⟨_, _, rfl, Or.inl rfl⟩
  | string hs =>
    cases hs with
    | quoted _ => exact ⟨_, _, rfl, rfl⟩
  | emptyArray _ => exact ⟨_, _, rfl, rfl⟩
  | array _ _ _ _ => exact ⟨_, _, rfl, rfl⟩
  | emptyObject _ => exact ⟨_, _, rfl, rfl⟩
  | object _ _ _ _ => exact ⟨_, _, rfl, rfl⟩
  | lastElement _ ih =>
    obtain ⟨c, t, rfl, hc⟩ := ih
    exact ⟨c, t, rfl, _, hc⟩
  | element _ _ _ _ ih _ =>
    obtain ⟨c, t, rfl, hc⟩ := ih
    exact ⟨c, _, rfl, _, hc⟩
  | member hs _ _ _ _ =>
    cases hs with
    | quoted _ => exact ⟨_, _, rfl, rfl⟩
  | lastMember _ ih => exact ih
  | moreMembers _ _ _ _ ih _ =>
    obtain ⟨c, t, rfl, hc⟩ := ih
    exact ⟨c, _, rfl, hc⟩

theorem isBlank_of_isDigit {c : Char} (h : c.isDigit = true) : isBlank c = false := by
  cases hb : isBlank c with
  | false => rfl
  | true =>
    simp only [isBlank, Bool.or_eq_true, decide_eq_true_eq] at hb
    rcases hb with ((rfl | rfl) | rfl) | rfl <;> cases h

theorem Json.Begins.isBlank {v : Json} {c : Char} (h : v.Begins c) : isBlank c = false := by
  cases v with
  | null => cases h; rfl
  | boolean b => cases b <;> cases h <;> rfl
  | number negative n =>
    rcases h with rfl | h
    · rfl
    · exact isBlank_of_isDigit h
  | string s => cases h; rfl
  | array vs => cases h; rfl
  | object ms => cases h; rfl

/-- What the first character of a spelling tells about the value. -/
def Json.ToldBy (v : Json) : Char → Prop
  | 'n' => v = null
  | 't' => v = boolean true
  | 'f' => v = boolean false
  | '"' => ∃ s, v = string s
  | '[' => ∃ vs, v = array vs
  | '\x7b' => ∃ ms, v = object ms
  | c => ∃ negative n, v = number negative n ∧ (c = '-' ∨ c.isDigit = true)

theorem Json.Begins.toldBy {v : Json} {c : Char} (h : v.Begins c) : v.ToldBy c := by
  cases v with
  | null => cases h; rfl
  | boolean b => cases b <;> cases h <;> rfl
  | number negative n =>
    rcases h with rfl | h
    · exact ⟨negative, n, rfl, Or.inl rfl⟩
    · -- No other first character is a digit.
      unfold ToldBy
      split <;> first | exact ⟨negative, n, rfl, Or.inr h⟩ | cases h
  | string s => cases h; exact ⟨s, rfl⟩
  | array vs => cases h; exact ⟨vs, rfl⟩
  | object ms => cases h; exact ⟨ms, rfl⟩

theorem Json.Begins.ne_bracket {v : Json} {c : Char} (h : v.Begins c) : c ≠ ']' := by
  rintro rfl
  obtain ⟨_, _, -, hc⟩ : v.ToldBy ']' := h.toldBy
  rcases hc with hc | hc <;> cases hc

end JsonText
end Datalog
