import Datalog.Proofs.JsonText.Words

/-!
# Every JSON value can be skipped

A value that does not matter is skipped, however it is spelled and however deep it is nested, and
what follows it is left (`skipAny_spelled`).  The proof follows the grammar: a lemma for each way in
which skipping goes on behind a bracket or an item, and then an induction on the spelling.

* `bind_of_read`, `bind_of_fault`: decoders in sequence.
* `valueStart_behind`, `peek_behind`: looking at the next character that is no blank.
* `colon_behind`, `memberName_behind`, `string_behind`: the words between values.
* `Brackets`: arrays and objects are skipped alike, so what is said about their items is said once,
  for both kinds of brackets.
* `Brackets.skipValue_succ`, `Brackets.skipItems_succ`: how skipping goes on behind an opening
  bracket, and behind an item.

## How much fuel is needed

Skipping an array takes a unit of fuel for the array itself and a unit for every element, and goes
on with what is left.  Since every element comes with a bracket or a comma, twice the length of a
value is enough for it, and one more is enough for what stands between brackets.
-/

namespace Datalog
namespace JsonText

section Sequencing

variable {α β : Type} {x : Decoder α} {cs cs' : List Char} {a : α} {e : Fault}

theorem bind_of_read (f : α → Decoder β) (h : x cs = .ok (a, cs')) : (x >>= f) cs = f a cs' := by
  show (x cs >>= fun p => f p.1 p.2) = _
  rw [h]
  rfl

theorem bind_of_fault (f : α → Decoder β) (h : x cs = .error e) : (x >>= f) cs = .error e := by
  show (x cs >>= fun p => f p.1 p.2) = _
  rw [h]
  rfl

end Sequencing

/-! ## The next character -/

theorem skipBlanks_behind {b t : List Char} {c : Char} (hb : IsBlanks b) (hc : isBlank c = false) :
    skipBlanks (b ++ c :: t) = c :: t := by
  unfold skipBlanks
  rw [List.dropWhile_append_of_pos hb, List.dropWhile_cons_of_neg (by rw [hc]; decide)]

theorem skipBlanks_of_isBlanks {b : List Char} (hb : IsBlanks b) : skipBlanks b = [] := by
  have h : (b ++ []).dropWhile isBlank = [] := List.dropWhile_append_of_pos hb
  rw [List.append_nil] at h
  exact h

theorem peek_behind {b t : List Char} {c : Char} (hb : IsBlanks b) (hc : isBlank c = false) :
    peek (b ++ c :: t) = .ok (some c, c :: t) := by
  unfold peek
  rw [skipBlanks_behind hb hc]
  rfl

theorem valueStart_behind {b t : List Char} {c : Char} (hb : IsBlanks b) (hc : isBlank c = false) :
    valueStart (b ++ c :: t) = .ok (c, c :: t) := by
  unfold valueStart
  rw [bind_of_read _ (peek_behind hb hc)]
  rfl

theorem ended_of_isBlanks {b : List Char} (hb : IsBlanks b) : Ended b :=
  fun c hc => Or.inl (hb c (List.mem_of_mem_head? hc))

theorem ended_behind {b t : List Char} {c : Char} (hb : IsBlanks b)
    (hc : c = ',' ∨ c = ']' ∨ c = '\x7d') : Ended (b ++ c :: t) := by
  cases b with
  | nil =>
    intro d hd
    cases hd
    exact Or.inr hc
  | cons d b =>
    intro c' hc'
    cases hc'
    exact Or.inl (hb d List.mem_cons_self)

theorem advance_cons (c : Char) (t : List Char) : advance (c :: t) = .ok ((), t) := rfl

/-! ## The words between values -/

theorem readWord_append (w rest : List Char) : readWord w (w ++ rest) = .ok rest := by
  induction w with
  | nil => rfl
  | cons c w ih =>
    rw [List.cons_append, readWord, if_pos rfl]
    exact ih

theorem pass_word (w rest : List Char) : pass (readWord w) (w ++ rest) = .ok ((), rest) := by
  unfold pass
  rw [readWord_append]

theorem colon_behind {b t : List Char} (hb : IsBlanks b) : colon (b ++ ':' :: t) = .ok ((), t) := by
  unfold colon
  rw [bind_of_read _ (peek_behind hb rfl)]
  rfl

theorem SpellsString.exists_chars {s : String} {ns : List Char} (h : SpellsString s ns) :
    ∃ cs, SpellsChars s.toList cs ∧ ∀ rest, ns ++ rest = '"' :: (cs ++ '"' :: rest) := by
  cases h with
  | @quoted cs hcs =>
    refine ⟨cs, hcs, fun rest => ?_⟩
    rw [List.cons_append, List.append_assoc]
    rfl

/-- Behind its opening quote, a string is read up to its closing quote. -/
theorem readString_toList {s : String} {cs rest : List Char} (h : SpellsChars s.toList cs) :
    (word readString >>= fun cs => pure (String.ofList cs)) (cs ++ '"' :: rest) =
      .ok (s, rest) := by
  have hread : word readString (cs ++ '"' :: rest) = .ok (s.toList, rest) :=
    readString_spelled h rest
  rw [bind_of_read _ hread, String.ofList_toList]
  rfl

theorem string_behind {b ns : List Char} {s : String} (hb : IsBlanks b) (h : SpellsString s ns)
    (rest : List Char) : string (b ++ (ns ++ rest)) = .ok (s, rest) := by
  obtain ⟨cs, hcs, hns⟩ := h.exists_chars
  unfold string
  rw [hns, bind_of_read _ (valueStart_behind hb rfl)]
  exact readString_toList hcs

theorem memberName_behind {b ns : List Char} {s : String} (hb : IsBlanks b)
    (h : SpellsString s ns) (rest : List Char) :
    memberName (b ++ (ns ++ rest)) = .ok (s, rest) := by
  obtain ⟨cs, hcs, hns⟩ := h.exists_chars
  unfold memberName
  rw [hns, bind_of_read _ (valueStart_behind hb rfl)]
  exact readString_toList hcs

/-! ## Skipping goes on -/

theorem skipNumber_spelled {n : Numeral} {cs rest : List Char} (h : SpellsNumeral n cs)
    (hrest : Ended rest) :
    skipNumber (cs ++ rest) = .ok rest ∧ skipNumber ('-' :: (cs ++ rest)) = .ok rest := by
  have hread := readNumeral_spelled false h hrest.endsNumeral
  obtain ⟨c, t, rfl, hc⟩ := h.exists_cons
  have hsign : c ≠ '-' := by rintro rfl; cases hc
  constructor
  · unfold skipNumber
    rw [List.cons_append] at hread ⊢
    split
    · next heq => exact absurd (List.cons.inj heq).1 hsign
    · rw [hread]
      rfl
  · show (readNumeral false (c :: t ++ rest) >>= fun x => pure x.2) = _
    rw [hread]
    rfl

theorem skipValue_of_number {fuel : Nat} {b t rest : List Char} {c : Char} (hb : IsBlanks b)
    (hc : c = '-' ∨ c.isDigit = true) (h : skipNumber (c :: t) = .ok rest) :
    skipValue (fuel + 1) (b ++ c :: t) = .ok ((), rest) := by
  have hblank : isBlank c = false := Json.Begins.isBlank (v := .number false ⟨[], none, none⟩) hc
  have hnumber : startsNumber c = true := by
    unfold startsNumber
    simpa using hc
  rw [skipValue, bind_of_read _ (valueStart_behind hb hblank)]
  split
  · cases hnumber
  · cases hnumber
  · cases hnumber
  · cases hnumber
  · cases hnumber
  · cases hnumber
  · rw [if_pos hnumber]
    unfold pass
    rw [h]

/-- The two kinds of brackets: around the elements of an array, and around the members of an
object. -/
inductive Brackets where
  | square
  | curly

namespace Brackets

/-- The bracket in front of the items. -/
def opening : Brackets → Char
  | square => '['
  | curly => '\x7b'

/-- The bracket behind the items. -/
def closing : Brackets → Char
  | square => ']'
  | curly => '\x7d'

/-- Skip an element of an array, or a member of an object. -/
def skipItem (fuel : Nat) : Brackets → Decoder Unit
  | square => skipValue fuel
  | curly => do
    match ← peek with
    | none => fail .truncated
    | some c =>
      if c = '"' then
        advance
        pass skipString
        colon
        skipValue fuel
      else fail .malformed

/-- Skip the items, at least one, and the bracket behind them. -/
def skipItems (fuel : Nat) : Brackets → Decoder Unit
  | square => skipElements fuel
  | curly => skipMembers fuel

/-- Go on behind an item, with further items behind a comma. -/
def skipBehind (fuel : Nat) (k : Brackets) : Decoder Unit := do
  match ← peek with
  | none => fail .truncated
  | some c =>
    if c = ',' then
      advance
      k.skipItems fuel
    else if c = k.closing then advance
    else fail .malformed

variable (k : Brackets) {fuel : Nat} {b b' t rest : List Char} {c : Char}

theorem isBlank_closing : isBlank k.closing = false := by cases k <;> rfl

theorem closing_ne_comma : k.closing ≠ ',' := by cases k <;> decide

theorem ended_behind_closing (hb : IsBlanks b) : Ended (b ++ k.closing :: t) := by
  cases k with
  | square => exact ended_behind hb (Or.inr (Or.inl rfl))
  | curly => exact ended_behind hb (Or.inr (Or.inr rfl))

/-- Behind an opening bracket, the next character tells whether there are items. -/
theorem skipValue_succ (hb : IsBlanks b) :
    skipValue (fuel + 1) (b ++ k.opening :: t) =
      (do if (← peek) = some k.closing then advance else k.skipItems fuel : Decoder Unit) t := by
  have hopening : isBlank k.opening = false := by cases k <;> rfl
  rw [skipValue, bind_of_read _ (valueStart_behind hb hopening)]
  cases k
  all_goals
    show (advance >>= _ : Decoder Unit) _ = _
    rw [bind_of_read _ (advance_cons _ _)]
    refine congrFun (congrArg (peek >>= ·) (funext fun o => ?_)) t
    split
    · exact (if_pos rfl).symm
    · next hclosing => exact (if_neg hclosing).symm

/-- The items are skipped one after the other. -/
theorem skipItems_succ : k.skipItems (fuel + 1) = (do k.skipItem fuel; k.skipBehind fuel) := by
  cases k with
  | square =>
    show skipElements (fuel + 1) = _
    rw [skipElements]
    refine congrArg (skipValue fuel >>= ·) (funext fun _ => ?_)
    refine congrArg (peek >>= ·) (funext fun o => ?_)
    split
    · rfl
    · rfl
    · rfl
    · next hcomma hclosing => exact ((if_neg hcomma).trans (if_neg hclosing)).symm
  | curly =>
    show skipMembers (fuel + 1) = _
    rw [skipMembers]
    unfold skipItem
    rw [bind_assoc]
    refine congrArg (peek >>= ·) (funext fun o => ?_)
    split
    · rfl
    · show _ = ((if '"' = '"' then _ else fail .malformed : Decoder Unit) >>= _)
      rw [if_pos rfl]
      simp only [bind_assoc]
      refine congrArg (advance >>= ·) (funext fun _ => ?_)
      refine congrArg (pass skipString >>= ·) (funext fun _ => ?_)
      refine congrArg (colon >>= ·) (funext fun _ => ?_)
      refine congrArg (skipValue fuel >>= ·) (funext fun _ => ?_)
      refine congrArg (peek >>= ·) (funext fun o => ?_)
      split
      · rfl
      · rfl
      · rfl
      · next hcomma hclosing => exact ((if_neg hcomma).trans (if_neg hclosing)).symm
    · next hquote =>
      show _ = ((if _ = '"' then _ else fail .malformed : Decoder Unit) >>= _)
      rw [if_neg hquote]
      rfl

theorem skipValue_of_items (hb : IsBlanks b) (hb' : IsBlanks b') (hc : isBlank c = false)
    (hclosing : c ≠ k.closing) :
    skipValue (fuel + 1) (b ++ k.opening :: (b' ++ c :: t)) = k.skipItems fuel (c :: t) := by
  rw [k.skipValue_succ hb, bind_of_read _ (peek_behind hb' hc),
    if_neg fun h => hclosing (Option.some.inj h)]

theorem skipValue_of_empty (hb : IsBlanks b) (hb' : IsBlanks b') :
    skipValue (fuel + 1) (b ++ k.opening :: (b' ++ k.closing :: rest)) = .ok ((), rest) := by
  rw [k.skipValue_succ hb, bind_of_read _ (peek_behind hb' k.isBlank_closing), if_pos rfl]
  rfl

theorem skipItems_of_comma (hb : IsBlanks b)
    (h : k.skipItem fuel t = .ok ((), b ++ ',' :: rest)) :
    k.skipItems (fuel + 1) t = k.skipItems fuel rest := by
  rw [skipItems_succ, bind_of_read _ h, skipBehind, bind_of_read _ (peek_behind hb rfl)]
  rfl

theorem skipItems_of_closing (hb : IsBlanks b)
    (h : k.skipItem fuel t = .ok ((), b ++ k.closing :: rest)) :
    k.skipItems (fuel + 1) t = .ok ((), rest) := by
  rw [skipItems_succ, bind_of_read _ h, skipBehind,
    bind_of_read _ (peek_behind hb k.isBlank_closing)]
  show (if k.closing = ',' then _ else if k.closing = k.closing then advance else _) _ = _
  rw [if_neg k.closing_ne_comma, if_pos rfl]
  rfl

end Brackets

/-! ## Everything is skipped -/

/-- There is fuel to begin with. -/
theorem exists_succ_of_le {n fuel : Nat} (h : n + 1 ≤ fuel) : ∃ k, fuel = k + 1 ∧ n ≤ k :=
  ⟨fuel - 1, by omega, by omega⟩

namespace Brackets

/-- The spelling of an item is skipped, and what follows it is left. -/
def SkipsItem (k : Brackets) (cs : List Char) : Prop :=
  ∀ fuel b rest, 2 * cs.length ≤ fuel → IsBlanks b → Ended rest →
    k.skipItem fuel (b ++ (cs ++ rest)) = .ok ((), rest)

/-- The spelling of the items is skipped together with the bracket behind them, and what follows is
left. -/
def SkipsItems (k : Brackets) (cs : List Char) : Prop :=
  ∀ fuel b b' rest, 2 * cs.length + 1 ≤ fuel → IsBlanks b → IsBlanks b' →
    k.skipItems fuel (b ++ (cs ++ (b' ++ k.closing :: rest))) = .ok ((), rest)

variable {k : Brackets} {b b' cs ds : List Char}

theorem SkipsItems.one (h : k.SkipsItem cs) : k.SkipsItems cs := by
  intro fuel b b' rest hfuel hb hb'
  obtain ⟨fuel, rfl, hk⟩ := exists_succ_of_le hfuel
  exact k.skipItems_of_closing hb' (h fuel b _ hk hb (k.ended_behind_closing hb'))

theorem SkipsItems.more (hb : IsBlanks b) (hb' : IsBlanks b') (h : k.SkipsItem cs)
    (hds : k.SkipsItems ds) : k.SkipsItems (cs ++ (b ++ ',' :: (b' ++ ds))) := by
  intro fuel b₀ b₁ rest hfuel hb₀ hb₁
  simp only [List.length_cons, List.length_append] at hfuel
  obtain ⟨fuel, rfl, hk⟩ := exists_succ_of_le hfuel
  have hfirst := h fuel b₀ (b ++ ',' :: (b' ++ (ds ++ (b₁ ++ k.closing :: rest)))) (by omega) hb₀
    (ended_behind hb (Or.inl rfl))
  simp only [List.cons_append, List.append_assoc]
  rw [k.skipItems_of_comma hb hfirst]
  exact hds fuel b' b₁ rest (by omega) hb' hb₁

variable (k)

theorem skipsItem_empty (hb : IsBlanks b) : square.SkipsItem (k.opening :: (b ++ [k.closing])) := by
  intro fuel b₀ rest hfuel hb₀ _
  obtain ⟨fuel, rfl, -⟩ := exists_succ_of_le (n := 2 * (b ++ [k.closing]).length + 1) hfuel
  rw [List.cons_append, List.append_assoc]
  exact k.skipValue_of_empty hb₀ hb

theorem skipsItem_brackets {c : Char} (hb : IsBlanks b) (hb' : IsBlanks b')
    (hc : isBlank c = false) (hclosing : c ≠ k.closing) (h : k.SkipsItems (c :: cs)) :
    square.SkipsItem (k.opening :: (b ++ (c :: cs ++ (b' ++ [k.closing])))) := by
  intro fuel b₀ rest hfuel hb₀ _
  simp only [List.length_cons, List.length_append, List.length_nil] at hfuel
  obtain ⟨fuel, rfl, hk⟩ := exists_succ_of_le (show 2 * (cs.length + 1) + 1 + 1 ≤ fuel by omega)
  have hskip : skipValue (fuel + 1)
      (b₀ ++ k.opening :: (b ++ c :: (cs ++ (b' ++ k.closing :: rest)))) = _ :=
    k.skipValue_of_items hb₀ hb hc hclosing
  simp only [List.cons_append, List.append_assoc, List.nil_append] at hskip ⊢
  exact hskip.trans (h fuel [] b' rest hk .nil hb')

end Brackets

/-- The part of a text is skipped, and what follows it is left: a value or a member wherever it may
stand, the elements of an array and the members of an object together with the bracket behind
them. -/
def Skips : Part → List Char → Prop
  | .value _ => Brackets.square.SkipsItem
  | .elements _ => Brackets.square.SkipsItems
  | .member _ _ => Brackets.curly.SkipsItem
  | .members _ => Brackets.curly.SkipsItems

namespace Skips

theorem word {v : Json} {w : List Char}
    (hw : w = "null".toList ∨ w = "true".toList ∨ w = "false".toList) : Skips (.value v) w := by
  intro fuel b rest hfuel hb _
  rcases hw with rfl | rfl | rfl
  all_goals
    obtain ⟨fuel, rfl, -⟩ := exists_succ_of_le hfuel
    show skipValue (fuel + 1) (b ++ _ :: _) = _
    rw [skipValue, bind_of_read _ (valueStart_behind hb rfl)]
    exact pass_word _ rest

theorem number {n : Numeral} {cs : List Char} (h : SpellsNumeral n cs) :
    Skips (.value (.number false n)) cs := by
  intro fuel b rest hfuel hb hrest
  have hskip := (skipNumber_spelled h hrest).1
  obtain ⟨c, t, rfl, hc⟩ := h.exists_cons
  obtain ⟨fuel, rfl, -⟩ := exists_succ_of_le (n := 2 * t.length + 1) hfuel
  exact skipValue_of_number hb (Or.inr hc) hskip

theorem negative {n : Numeral} {cs : List Char} (h : SpellsNumeral n cs) :
    Skips (.value (.number true n)) ('-' :: cs) := by
  intro fuel b rest hfuel hb hrest
  obtain ⟨fuel, rfl, -⟩ := exists_succ_of_le (n := 2 * cs.length + 1) hfuel
  exact skipValue_of_number hb (Or.inl rfl) (skipNumber_spelled h hrest).2

theorem string {s : String} {cs : List Char} (h : SpellsString s cs) :
    Skips (.value (.string s)) cs := by
  intro fuel b rest hfuel hb _
  obtain ⟨ts, hts, hcs⟩ := h.exists_chars
  have hlength : 1 ≤ cs.length := by cases h; exact Nat.succ_le_succ (Nat.zero_le _)
  obtain ⟨fuel, rfl, -⟩ := exists_succ_of_le (n := 0) (Nat.le_trans (by omega) hfuel)
  show skipValue (fuel + 1) _ = _
  rw [hcs, skipValue, bind_of_read _ (valueStart_behind hb rfl)]
  simp only
  rw [bind_of_read _ (advance_cons _ _)]
  unfold pass
  rw [skipString_spelled hts]

theorem member {name : String} {v : Json} {b b' ns cs : List Char} (hname : SpellsString name ns)
    (hb : IsBlanks b) (hb' : IsBlanks b') (h : Skips (.value v) cs) :
    Skips (.member name v) (ns ++ (b ++ ':' :: (b' ++ cs))) := by
  obtain ⟨ts, hts, hns⟩ := hname.exists_chars
  intro fuel b₀ rest hfuel hb₀ hrest
  have hstring : pass skipString (ts ++ '"' :: (b ++ ':' :: (b' ++ (cs ++ rest)))) =
      .ok ((), b ++ ':' :: (b' ++ (cs ++ rest))) := by
    unfold pass
    rw [skipString_spelled hts]
  simp only [List.length_cons, List.length_append] at hfuel
  simp only [List.cons_append, List.append_assoc]
  show (peek >>= _ : Decoder Unit) _ = _
  rw [hns, bind_of_read _ (peek_behind hb₀ rfl)]
  show (advance >>= _ : Decoder Unit) _ = _
  rw [bind_of_read _ (advance_cons _ _), bind_of_read _ hstring, bind_of_read _ (colon_behind hb)]
  exact h fuel b' rest (by omega) hb' hrest

end Skips

/-- **Skipping** follows the grammar. -/
theorem Spells.skips {p : Part} {cs : List Char} (h : Spells p cs) : Skips p cs := by
  induction h with
  | null => exact .word (Or.inl rfl)
  | yes => exact .word (Or.inr (Or.inl rfl))
  | no => exact .word (Or.inr (Or.inr rfl))
  | number hn => exact .number hn
  | negative hn => exact .negative hn
  | string hs => exact .string hs
  | emptyArray hb => exact Brackets.square.skipsItem_empty hb
  | array hb hcs hb' ih =>
    obtain ⟨c, t, rfl, v, hc⟩ := hcs.exists_cons
    exact Brackets.square.skipsItem_brackets hb hb' hc.isBlank hc.ne_bracket ih
  | emptyObject hb => exact Brackets.curly.skipsItem_empty hb
  | object hb hcs hb' ih =>
    obtain ⟨_, t, rfl, rfl⟩ := hcs.exists_cons
    exact Brackets.curly.skipsItem_brackets hb hb' rfl (by decide) ih
  | lastElement _ ih => exact .one ih
  | element _ hb hb' _ ih ihs => exact .more hb hb' ih ihs
  | member hname hb hb' _ ih => exact .member hname hb hb' ih
  | lastMember _ ih => exact .one ih
  | moreMembers _ hb hb' _ ih ihs => exact .more hb hb' ih ihs

/-- **Every value is skipped**, however it is spelled. -/
theorem skipAny_spelled {v : Json} {b cs rest : List Char} (hb : IsBlanks b)
    (h : Spells (.value v) cs) (hrest : Ended rest) :
    skipAny (b ++ (cs ++ rest)) = .ok ((), rest) := by
  refine h.skips _ b rest ?_ hb hrest
  simp only [List.length_append]
  omega

end JsonText
end Datalog
