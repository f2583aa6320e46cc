import Datalog.Proofs.Token.Munch
import Datalog.Token.Stream

/-!
# What a token stream hands out

A stream over a text hands out the tokens of the reading by longest matches, each with the place
where it is written, and then one last item: the token for the end of the text, or the report of the
first character behind a gap at which no token starts (`TokenStream.reads_longest_matches`).

* `TokenStream.after`: the stream from which some items have been taken.
* `TokenStream.Item.offset`: the place of which an item speaks.

## Why the places are strictly increasing

Places are counted from the beginning of the text, in bytes.  Between two places lies at least the
text of one token, which is never empty, and this also holds in front of the last item.  Every place
is the length of a front of the text, so it is never inside a character.
-/

namespace Datalog

/-! ## Lengths in bytes -/

theorem byteLength_cons (c : Char) (cs : List Char) :
    byteLength (c :: cs) = c.utf8Size + byteLength cs := rfl

theorem byteLength_pos {cs : List Char} (h : cs ≠ []) : 0 < byteLength cs := by
  cases cs with
  | nil => exact absurd rfl h
  | cons c cs =>
    rw [byteLength_cons]
    exact Nat.add_pos_left c.utf8Size_pos _

theorem utf8ByteSize_ofList_eq_byteLength (cs : List Char) :
    (String.ofList cs).utf8ByteSize = byteLength cs := by
  induction cs with
  | nil => rfl
  | cons c cs ih =>
    rw [← List.singleton_append, String.ofList_append, String.utf8ByteSize_append, ih,
      byteLength_append, ← String.singleton_eq_ofList, String.utf8ByteSize_singleton]
    rfl

theorem byteLength_toList (text : String) : byteLength text.toList = text.utf8ByteSize := by
  rw [← utf8ByteSize_ofList_eq_byteLength, String.ofList_toList]

/-- The length of a front of a text is the place between two characters. -/
theorem isValid_byteLength {text : String} {front : List Char} (h : front <+: text.toList) :
    String.Pos.Raw.IsValid text ⟨byteLength front⟩ := by
  obtain ⟨rest, hrest⟩ := h
  refine String.Pos.Raw.isValid_iff_exists_append.mpr
    ⟨String.ofList front, String.ofList rest, ?_, ?_⟩
  · rw [← String.ofList_append, hrest, String.ofList_toList]
  · exact String.Pos.Raw.ext (utf8ByteSize_ofList_eq_byteLength front).symm

/-! ## The places of tokens -/

namespace Token

theorem getElem?_lexemesFrom (offset : Nat) (ps : List Piece) (i : Nat) :
    (lexemesFrom offset ps)[i]? = ps[i]?.map fun p =>
      ⟨p.token, offset + byteLength ((ps.take i).flatMap Piece.chars ++ p.gap)⟩ := by
  induction ps generalizing offset i with
  | nil => rfl
  | cons p ps ih =>
    cases i with
    | zero => rfl
    | succ i =>
      rw [lexemesFrom, List.getElem?_cons_succ, List.getElem?_cons_succ, ih]
      simp only [List.take_succ_cons, List.flatMap_cons, List.append_assoc, byteLength_append,
        Nat.add_assoc]

@[simp] theorem length_lexemesFrom (offset : Nat) (ps : List Piece) :
    (lexemesFrom offset ps).length = ps.length := by
  induction ps generalizing offset with
  | nil => rfl
  | cons p ps ih => rw [lexemesFrom, List.length_cons, List.length_cons, ih]

theorem le_offset_of_mem_lexemesFrom {offset : Nat} {ps : List Piece} {l : Lexeme}
    (h : l ∈ lexemesFrom offset ps) : offset ≤ l.offset := by
  obtain ⟨i, hi⟩ := List.mem_iff_getElem?.mp h
  rw [getElem?_lexemesFrom, Option.map_eq_some_iff] at hi
  obtain ⟨p, -, rfl⟩ := hi
  exact Nat.le_add_right _ _

/-- **The places of tokens increase, and what is behind the last token lies behind its place.** -/
theorem pairwise_offset_lexemesFrom (offset : Nat) {ps : List Piece} (hps : ∀ p ∈ ps, p.word ≠ [])
    {stop : Nat} (hstop : offset + byteLength (ps.flatMap Piece.chars) ≤ stop) :
    ((lexemesFrom offset ps).map Lexeme.offset ++ [stop]).Pairwise (· < ·) := by
  induction ps generalizing offset with
  | nil => exact List.pairwise_singleton _ _
  | cons p ps ih =>
    rw [List.flatMap_cons, byteLength_append, ← Nat.add_assoc] at hstop
    rw [lexemesFrom, List.map_cons, List.cons_append, List.pairwise_cons]
    refine ⟨fun place hplace => ?_, ih _ (fun q hq => hps q (List.mem_cons_of_mem _ hq)) hstop⟩
    -- The place lies behind the first token, which has characters.
    have hfirst : offset + byteLength p.gap < offset + byteLength p.chars := by
      have hword := byteLength_pos (hps p List.mem_cons_self)
      rw [Piece.chars, byteLength_append]
      omega
    refine Nat.lt_of_lt_of_le hfirst ?_
    rcases List.mem_append.mp hplace with hplace | hplace
    · obtain ⟨l, hl, rfl⟩ := List.mem_map.mp hplace
      exact le_offset_of_mem_lexemesFrom hl
    · obtain rfl := List.mem_singleton.mp hplace
      omega

theorem Munches.writtenAs {text gap unread : List Char} {ps : List Piece}
    (h : Munches text ps gap unread) {p : Piece} (hp : p ∈ ps) : p.token.WrittenAs p.word := by
  induction h with
  | stop _ _ _ => cases hp
  | piece _ _ hwritten _ _ ih =>
    rcases List.mem_cons.mp hp with rfl | hp
    · exact hwritten
    · exact ih hp

/-- What lies in front of a token is a front of the text. -/
theorem Munches.isFront_of_getElem? {text gap unread : List Char} {ps : List Piece}
    (h : Munches text ps gap unread) {i : Nat} {p : Piece} (hp : ps[i]? = some p) :
    (ps.take i).flatMap Piece.chars ++ p.gap <+: text := by
  have hsplit : ps = ps.take i ++ p :: ps.drop (i + 1) := by
    obtain ⟨hlt, hget⟩ := List.getElem?_eq_some_iff.mp hp
    rw [← hget, List.getElem_cons_drop, List.take_append_drop]
  have hchars : ps.flatMap Piece.chars =
      (ps.take i).flatMap Piece.chars ++ p.gap ++
        (p.word ++ (ps.drop (i + 1)).flatMap Piece.chars) := by
    conv => lhs; rw [hsplit]
    rw [List.flatMap_append, List.flatMap_cons, Piece.chars]
    simp only [List.append_assoc]
  rw [h.text_eq, hchars, List.append_assoc]
  exact List.prefix_append _ _

end Token

namespace TokenStream

open Token (Piece Munches lexemesFrom endingAt)

/-- The place of which an item speaks. -/
def Item.offset : Item → Nat
  | .ok l => l.offset
  | .error e => e.offset

theorem offset_item (ending : Token.Ending) : Item.offset ending.item = ending.offset := by
  cases ending <;> rfl

@[simp] theorem offset_endingAt (offset : Nat) (unread : List Char) :
    (endingAt offset unread).offset = offset := by
  cases unread <;> rfl

/-! ## Taking items one by one -/

/-- The stream from which the first items have been taken. -/
def after (s : TokenStream) : Nat → TokenStream
  | 0 => s
  | n + 1 => s.next.2.after n

@[simp] theorem after_zero (s : TokenStream) : s.after 0 = s := rfl

theorem after_succ (s : TokenStream) (n : Nat) : s.after (n + 1) = s.next.2.after n := rfl

/-- The next item is the first of those still to come. -/
theorem next_eq_drain (s : TokenStream) :
    s.next.1 = s.drain.1.head? ∧ s.next.2.drain.1 = s.drain.1.tail := by
  obtain ⟨text, rest, offset⟩ := s
  cases rest with
  | none => exact ⟨rfl, rfl⟩
  | some cs =>
    simp only [next, drain]
    cases hstep : Token.scanStep offset cs with
    | ended ending =>
      rw [Token.scan_of_ended hstep]
      exact ⟨rfl, rfl⟩
    | lexeme l rest behind =>
      rw [Token.scan_of_lexeme hstep]
      exact ⟨rfl, rfl⟩

theorem next_after (s : TokenStream) (n : Nat) : (s.after n).next.1 = s.drain.1[n]? := by
  induction n generalizing s with
  | zero => rw [after_zero, (next_eq_drain s).1, List.head?_eq_getElem?]
  | succ n ih => rw [after_succ, ih, (next_eq_drain s).2, List.getElem?_tail]

theorem text_next (s : TokenStream) : s.next.2.text = s.text := by
  obtain ⟨text, rest, offset⟩ := s
  cases rest with
  | none => rfl
  | some cs =>
    simp only [next]
    cases Token.scanStep offset cs <;> rfl

theorem reset_after (s : TokenStream) (n : Nat) : (s.after n).reset = s.reset := by
  induction n generalizing s with
  | zero => rfl
  | succ n ih => rw [after_succ, ih, reset, text_next, reset]

/-! ## The items of a text -/

/-- A stream hands out the tokens of the reading of its text, and how the text ends. -/
theorem drain_ofText (text : String) : ∃ ps gap unread, Munches text.toList ps gap unread ∧
    (ofText text).drain.1 = (lexemesFrom 0 ps).map .ok ++
      [(endingAt (byteLength (ps.flatMap Piece.chars ++ gap)) unread).item] := by
  obtain ⟨ps, gap, unread, hmunches, hscan⟩ := Token.scan_munches 0 text.toList
  refine ⟨ps, gap, unread, hmunches, ?_⟩
  rw [Nat.zero_add] at hscan
  simp only [ofText, drain, hscan]

/-- A text that is read as known has the known items. -/
theorem drain_of_munches {text : String} {ps : List Piece} {gap unread : List Char}
    (h : Munches text.toList ps gap unread) :
    (ofText text).drain.1 = (lexemesFrom 0 ps).map .ok ++
      [(endingAt (byteLength (ps.flatMap Piece.chars ++ gap)) unread).item] := by
  obtain ⟨ps', gap', unread', h', hdrain⟩ := drain_ofText text
  obtain ⟨rfl, rfl, rfl⟩ := h.unique h'
  exact hdrain

/-- **A stream reads its text by longest matches, and loses nothing.**  A text has one reading by
longest matches, and is made up of its gaps, the texts of its tokens and what is left unread.  The
stream hands out the tokens, each with the byte offset at which its text starts, then one last item,
and then nothing; reset at any time, it begins again.  The offsets increase strictly and lie between
characters.  If nothing is left unread, the last item is the token for the end, behind the whole
text.  Otherwise it reports the first unread character at its place, and the text in front of it
gives the same tokens and ends there. -/
theorem reads_longest_matches (text : String) :
    ∃ (ps : List Piece) (gap unread : List Char) (items : List Item),
      Munches text.toList ps gap unread ∧
      (∀ ps' gap' unread', Munches text.toList ps' gap' unread' →
        ps = ps' ∧ gap = gap' ∧ unread = unread') ∧
      text.toList = ps.flatMap Piece.chars ++ (gap ++ unread) ∧
      (∀ n, ((ofText text).after n).next.1 = items[n]? ∧
        ((ofText text).after n).reset = ofText text) ∧
      items.length = ps.length + 1 ∧
      (∀ (i : Nat) (p : Piece), ps[i]? = some p → p.token ≠ .endOfText ∧ items[i]? =
        some (.ok ⟨p.token, byteLength ((ps.take i).flatMap Piece.chars ++ p.gap)⟩)) ∧
      (items.map Item.offset).Pairwise (· < ·) ∧
      (∀ item ∈ items, String.Pos.Raw.IsValid text ⟨Item.offset item⟩) ∧
      match unread with
      | [] => items[ps.length]? = some (.ok ⟨.endOfText, text.utf8ByteSize⟩)
      | c :: _ => ∃ front : String, text.toList = front.toList ++ unread ∧
          items[ps.length]? = some (.error ⟨front.utf8ByteSize, c⟩) ∧
          (ofText front).drain.1 =
            items.take ps.length ++ [.ok ⟨.endOfText, front.utf8ByteSize⟩] := by
  obtain ⟨ps, gap, unread, hmunches, hitems⟩ := drain_ofText text
  set stop := byteLength (ps.flatMap Piece.chars ++ gap) with hstop
  have hwords : ∀ p ∈ ps, p.word ≠ [] := fun p hp => (hmunches.writtenAs hp).ne_nil
  have hlast : (ofText text).drain.1[ps.length]? = some (endingAt stop unread).item := by
    rw [hitems, List.getElem?_append_right (by simp)]
    simp
  refine ⟨ps, gap, unread, (ofText text).drain.1, hmunches, fun _ _ _ => hmunches.unique,
    hmunches.text_eq, fun n => ⟨next_after _ n, reset_after _ n⟩, ?_, fun i p hi => ⟨?_, ?_⟩, ?_,
    ?_, ?_⟩
  case refine_1 => simp [hitems]
  case refine_2 =>
    intro htoken
    have hwritten := hmunches.writtenAs (List.mem_of_getElem? hi)
    rw [htoken] at hwritten
    exact hwritten
  case refine_3 =>
    obtain ⟨hlt, -⟩ := List.getElem?_eq_some_iff.mp hi
    rw [hitems, List.getElem?_append_left (by simpa using hlt), List.getElem?_map,
      Token.getElem?_lexemesFrom, hi]
    simp only [Option.map_some, Nat.zero_add]
  case refine_4 =>
    rw [hitems, List.map_append, List.map_map, List.map_singleton, offset_item, offset_endingAt]
    refine Token.pairwise_offset_lexemesFrom 0 hwords ?_
    rw [Nat.zero_add, hstop, byteLength_append]
    exact Nat.le_add_right _ _
  case refine_5 =>
    intro item hitem
    rw [hitems] at hitem
    rcases List.mem_append.mp hitem with hitem | hitem
    · obtain ⟨l, hl, rfl⟩ := List.mem_map.mp hitem
      obtain ⟨i, hi⟩ := List.mem_iff_getElem?.mp hl
      rw [Token.getElem?_lexemesFrom, Option.map_eq_some_iff] at hi
      obtain ⟨p, hp, rfl⟩ := hi
      show String.Pos.Raw.IsValid text ⟨0 + byteLength _⟩
      rw [Nat.zero_add]
      exact isValid_byteLength (hmunches.isFront_of_getElem? hp)
    · obtain rfl := List.mem_singleton.mp hitem
      rw [offset_item, offset_endingAt]
      refine isValid_byteLength ?_
      rw [hmunches.text_eq, ← List.append_assoc]
      exact List.prefix_append _ _
  case refine_6 =>
    cases unread with
    | nil =>
      rw [hlast, ← byteLength_toList, hmunches.text_eq, List.append_nil]
      rfl
    | cons c unread =>
      have hsize : (String.ofList (ps.flatMap Piece.chars ++ gap)).utf8ByteSize = stop :=
        utf8ByteSize_ofList_eq_byteLength _
      have hcut : Munches (String.ofList (ps.flatMap Piece.chars ++ gap)).toList ps gap [] := by
        rw [String.toList_ofList]
        exact hmunches.cut
      refine ⟨String.ofList (ps.flatMap Piece.chars ++ gap), ?_, ?_, ?_⟩
      · rw [String.toList_ofList, hmunches.text_eq, List.append_assoc]
      · rw [hlast, hsize]
        rfl
      · rw [drain_of_munches hcut, hsize, hitems, List.take_left' (by simp)]
        rfl

end TokenStream
end Datalog
