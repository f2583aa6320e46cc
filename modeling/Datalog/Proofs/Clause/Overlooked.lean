import Datalog.Proofs.Clause.FirstOffence

/-!
# The kinds of tokens that a report leaves out

A report of an unexpected token lists the kinds that the reader asked for in its place.  A token of
each of them can follow there, but others may as well: where a reader has looked for a token, and
has gone on without it, the reader that is stuck there no longer asks for it.  So a report leaves
out the parenthesis that may open behind a bare name, the one that may close right behind an opening
one, the comma behind an atom of a body, and the end in place of a further clause; and these are all
(`Clause.expected_iff_mayFollow`).

* `Grammar.MayFollow`: a token of a kind can follow.
* `Grammar.Place`: the kinds that a reader asks for where it is stuck, and those it overlooks.
* `Grammar.StuckBehind`: behind some lexemes a reader is stuck, unless one of those kinds is next.
* `Grammar.programPlaces`, `Grammar.soleAtomPlaces`: all such places.

## Why nothing else can follow

In front of a token of any other kind, the reader is stuck in the same place as in front of the
token that it reports.  A reader is not stuck on anything that can be derived, so nothing that can
be derived goes on with such a token (`Grammar.Judges.follows_iff`).  For this it is enough to go
through the places where a reader may be stuck, and the derivations need not be taken apart.
-/

namespace Datalog
namespace Grammar

/-- A token of a kind can follow: tokens of the class go on with one. -/
def MayFollow (Class : List Token → Prop) (tokens : List Token) (k : Token.Kind) : Prop :=
  ∃ token : Token, token.kind = k ∧ Viable Class (tokens ++ [token])

/-- The kind of the token that comes next; behind the last one it is the end. -/
def nextKind : List Lexeme → Token.Kind
  | [] => .endOfText
  | l :: _ => l.token.kind

theorem notNext_of_nextKind {token : Token} {rest : List Lexeme}
    (h : nextKind rest ≠ token.kind) : NotNext token rest := by
  intro heq
  obtain ⟨tokens, htokens⟩ := List.head?_eq_some_iff.mp heq
  obtain ⟨offset, rest', rfl, -⟩ := tokensOf_eq_cons_iff.mp htokens
  exact h rfl

theorem nextKind_of_head? {token : Token} {rest : List Lexeme}
    (h : (tokensOf rest ++ [Token.endOfText]).head? = some token) :
    nextKind rest = token.kind := by
  cases rest with
  | nil => exact congrArg Token.kind (Option.some.inj h)
  | cons l rest => exact congrArg Token.kind (Option.some.inj h)

/-! ## Places where a reader is stuck -/

/-- A place where a reader may be stuck. -/
structure Place where
  /-- The kinds of tokens that the reader asks for. -/
  asked : List Token.Kind
  /-- The kinds of tokens that could stand there as well. -/
  overlooked : List Token.Kind
  deriving DecidableEq, Repr

/-- The kinds of tokens that can follow at a place. -/
def Place.kinds (p : Place) : List Token.Kind := p.asked ++ p.overlooked

/-- The places where a reader of a class may be stuck: in front of everything, and further on. -/
structure Places where
  /-- The place in front of everything. -/
  first : Place
  /-- The places behind some lexemes. -/
  later : List Place

/-- A place is one of the given ones behind some lexemes. -/
def Places.At (ps : Places) (front : List Lexeme) (p : Place) : Prop :=
  (front = [] ∧ p = ps.first) ∨ (front ≠ [] ∧ p ∈ ps.later)

section Stuck

variable {β β' : Type} {Class Class' : List Token → Prop}
  {read : List Lexeme → Except (Stop × List Lexeme) β}
  {read' : List Lexeme → Except (Stop × List Lexeme) β'}
  {ps ps' : Places} {p : Place} {front ls : List Lexeme} {e : Stop × List Lexeme}

/-- Behind some lexemes a reader is stuck, whatever follows, unless it begins with a token that the
reader asks for or overlooks; and what it overlooks can follow. -/
structure StuckBehind (Class : List Token → Prop)
    (read : List Lexeme → Except (Stop × List Lexeme) β) (front : List Lexeme) (p : Place) :
    Prop where
  can_follow : ∀ token : Token, token.kind ∈ p.overlooked →
    Viable Class (tokensOf front ++ [token])
  stuck : ∀ rest, nextKind rest ∉ p.kinds →
    read (front ++ rest) = .error (.stuck p.asked, rest)

/-- Where nothing is overlooked. -/
theorem StuckBehind.of_stuck {asked : List Token.Kind}
    (h : ∀ rest, nextKind rest ∉ asked → read (front ++ rest) = .error (.stuck asked, rest)) :
    StuckBehind Class read front ⟨asked, []⟩ where
  can_follow := fun _ htoken => absurd htoken List.not_mem_nil
  stuck rest hrest := h rest (by rwa [Place.kinds, List.append_nil] at hrest)

/-- Whoever is stuck in a part is stuck in the whole. -/
theorem StuckBehind.within (before : List Lexeme) (h : StuckBehind Class read front p)
    (hpart : ∀ part, Class part → Viable Class' (tokensOf before ++ part))
    (hread : ∀ rest, read (front ++ rest) = .error (.stuck p.asked, rest) →
      read' (before ++ (front ++ rest)) = .error (.stuck p.asked, rest)) :
    StuckBehind Class' read' (before ++ front) p where
  can_follow token htoken := by
    rw [tokensOf_append, List.append_assoc]
    exact (h.can_follow token htoken).within hpart
  stuck rest hrest := by
    rw [List.append_assoc]
    exact hread rest (h.stuck rest hrest)

/-- A reader is stuck at one of the given places. -/
def StuckAt (Class : List Token → Prop) (read : List Lexeme → Except (Stop × List Lexeme) β)
    (ps : Places) (ls : List Lexeme) (e : Stop × List Lexeme) : Prop :=
  ∃ front p, e.1 = .stuck p.asked ∧ ls = front ++ e.2 ∧ ps.At front p ∧
    StuckBehind Class read front p

/-- A whole that begins with a part has the places of that part. -/
theorem StuckAt.inside (h : StuckAt Class read ps ls e) (hfirst : ps.first = ps'.first)
    (hlater : ps.later ⊆ ps'.later) (hpart : ∀ part, Class part → Viable Class' part)
    (hread : ∀ ls e, read ls = .error e → read' ls = .error e) :
    StuckAt Class' read' ps' ls e := by
  obtain ⟨front, p, hstop, hls, hat, hbehind⟩ := h
  refine ⟨front, p, hstop, hls, ?_, hbehind.within [] hpart fun rest => hread _ _⟩
  exact hat.imp (And.imp_right fun hp => hp.trans hfirst) (And.imp_right fun hp => hlater hp)

/-- In a whole that goes on with a part, all places of that part are later ones. -/
theorem StuckAt.behind (before : List Lexeme) (hbefore : before ≠ [])
    (h : StuckAt Class read ps ls e) (hplaces : ps.first :: ps.later ⊆ ps'.later)
    (hpart : ∀ part, Class part → Viable Class' (tokensOf before ++ part))
    (hread : ∀ ls e, read ls = .error e → read' (before ++ ls) = .error e) :
    StuckAt Class' read' ps' (before ++ ls) e := by
  obtain ⟨front, p, hstop, rfl, hat, hbehind⟩ := h
  refine ⟨before ++ front, p, hstop, (List.append_assoc _ _ _).symm, Or.inr ⟨?_, ?_⟩,
    hbehind.within before hpart fun rest => hread _ _⟩
  · exact fun hnil => hbefore (List.append_eq_nil_iff.mp hnil).1
  · rcases hat with ⟨-, rfl⟩ | ⟨-, hp⟩
    · exact hplaces List.mem_cons_self
    · exact hplaces (List.mem_cons_of_mem _ hp)

end Stuck

/-! ## Arguments and atoms -/

/-- Where a term has to begin, and behind a term. -/
def termPlaces : Places where
  first := ⟨[.symbol, .var], []⟩
  later := [⟨[.symbol, .var], []⟩, ⟨[.comma, .rparen], []⟩]

/-- Where a name has to stand, and behind the parenthesis that opens its arguments. -/
def atomPlaces : Places where
  first := ⟨[.symbol], []⟩
  later := ⟨[.symbol, .var], [.rparen]⟩ :: termPlaces.later

theorem readTerms_of_nextKind {rest : List Lexeme} (h : nextKind rest ∉ [.symbol, .var]) :
    readTerms rest = stuck [.symbol, .var] rest := by
  cases rest with
  | nil => rfl
  | cons l rest =>
    obtain ⟨token, offset⟩ := l
    refine readTerms_of_not_term ?_ rest
    cases token with
    | symbol name => exact absurd List.mem_cons_self h
    | var name => exact absurd (List.mem_cons_of_mem _ List.mem_cons_self) h
    | _ => rfl

theorem stuckAt_readTerms {ls : List Lexeme} {e : Stop × List Lexeme}
    (h : readTerms ls = .error e) :
    StuckAt (Derives IsArguments) readTerms termPlaces ls e := by
  have hfirst : StuckBehind (Derives IsArguments) readTerms [] ⟨[.symbol, .var], []⟩ :=
    .of_stuck fun rest hrest => readTerms_of_nextKind hrest
  fun_induction readTerms ls with
  | case1 =>
    cases h
    exact ⟨[], _, rfl, rfl, Or.inl ⟨rfl, rfl⟩, hfirst⟩
  | case2 l rest =>
    cases h
    exact ⟨[], _, rfl, rfl, Or.inl ⟨rfl, rfl⟩, hfirst⟩
  | case3 => cases h
  | case4 l t hl offset rest e' hrest ih =>
    cases h
    refine StuckAt.behind [l, ⟨.comma, offset⟩] (List.cons_ne_nil _ _) (ih hrest) (by decide)
      (fun part => viable_isArguments_comma (term?_eq_some_iff.mp hl)) fun ls e hls => ?_
    rw [List.cons_append, List.singleton_append, readTerms_of_comma hl, hls]
  | case5 => cases h
  | case6 l rest t hl =>
    cases h
    refine ⟨[l], ⟨[.comma, .rparen], []⟩, rfl, rfl,
      Or.inr ⟨List.cons_ne_nil _ _, by simp [termPlaces]⟩, .of_stuck fun rest' hrest' => ?_⟩
    refine readTerms_of_notNext hl (notNext_of_nextKind ?_) (notNext_of_nextKind ?_)
    · exact fun heq => hrest' (heq ▸ List.mem_cons_self)
    · exact fun heq => hrest' (heq ▸ List.mem_cons_of_mem _ List.mem_cons_self)

/-- The parenthesis may be closed at once, but this has been looked for before. -/
theorem stuckBehind_lparen (p : Predicate) (o₁ o₂ : Nat) :
    StuckBehind (Derives IsAtom) readAtom [⟨.symbol p, o₁⟩, ⟨.lparen, o₂⟩]
      ⟨[.symbol, .var], [.rparen]⟩ where
  can_follow token htoken := by
    cases token with
    | rparen => exact .of_class ⟨_, .empty p⟩
    | _ => simp [Token.kind] at htoken
  stuck rest hrest := by
    have hterms := readTerms_of_nextKind fun hmem => hrest (List.mem_append_left _ hmem)
    have hnext : NotNext .rparen rest := notNext_of_nextKind fun heq =>
      hrest (List.mem_append_right _ (heq ▸ List.mem_cons_self))
    rw [List.cons_append, List.singleton_append, readAtom_of_lparen p o₁ o₂ hnext, hterms]
    rfl

theorem stuckAt_readAtom {ls : List Lexeme} {e : Stop × List Lexeme}
    (h : readAtom ls = .error e) : StuckAt (Derives IsAtom) readAtom atomPlaces ls e := by
  unfold readAtom at h
  split at h
  · cases h
  · next p o₁ o₂ rest hrparen =>
    split at h
    · cases h
    · next hterms =>
      cases h
      obtain ⟨front, place, hstop, rfl, hat, hbehind⟩ := stuckAt_readTerms hterms
      rcases hat with ⟨rfl, rfl⟩ | ⟨hfront, hplace⟩
      · exact ⟨_, ⟨[.symbol, .var], [.rparen]⟩, hstop, rfl,
          Or.inr ⟨List.cons_ne_nil _ _, List.mem_cons_self⟩, stuckBehind_lparen p o₁ o₂⟩
      · refine ⟨⟨.symbol p, o₁⟩ :: ⟨.lparen, o₂⟩ :: front, place, hstop, rfl,
          Or.inr ⟨List.cons_ne_nil _ _, List.mem_cons_of_mem _ hplace⟩,
          hbehind.within [⟨.symbol p, o₁⟩, ⟨.lparen, o₂⟩] ?_ fun rest' hread => ?_⟩
        · rintro part ⟨ts, tokens, hts, rfl⟩
          exact .of_class ⟨_, .applied p hts⟩
        · have hnext : NotNext .rparen (front ++ rest') := by
            obtain ⟨l, front', rfl⟩ := List.exists_cons_of_ne_nil hfront
            exact (notNext_of_forall_ne hrparen : NotNext .rparen (l :: front' ++ e.2))
          rw [List.cons_append, List.singleton_append, readAtom_of_lparen p o₁ o₂ hnext, hread]
  · cases h
  · next hbare =>
    cases h
    refine ⟨[], ⟨[.symbol], []⟩, rfl, rfl, Or.inl ⟨rfl, rfl⟩, .of_stuck fun rest hrest => ?_⟩
    exact readAtom_of_not_symbol fun p => notNext_of_nextKind fun heq =>
      hrest (heq ▸ List.mem_cons_self)

/-! ## Behind an atom -/

/-- The parenthesis that may open behind a bare name. -/
def opening (tokens : List Token) : List Token.Kind :=
  match tokens.getLast? with
  | some (.symbol _) => [.lparen]
  | _ => []

theorem mem_opening {tokens : List Token} {k : Token.Kind} :
    k ∈ opening tokens ↔ k = .lparen ∧ EndsBare tokens := by
  unfold opening EndsBare
  split
  · next p hp => simp [hp]
  · next hnot =>
    simp only [List.not_mem_nil, false_iff, not_and, not_exists]
    exact fun _ p hp => hnot p hp

theorem opening_eq (tokens : List Token) : opening tokens = [] ∨ opening tokens = [.lparen] := by
  unfold opening
  split
  · exact Or.inr rfl
  · exact Or.inl rfl

theorem notNext_of_opening {tokens : List Token} {rest : List Lexeme}
    (h : nextKind rest ∉ opening tokens) (hbare : EndsBare tokens) : NotNext .lparen rest :=
  notNext_of_nextKind fun heq => h (mem_opening.mpr ⟨heq, hbare⟩)

/-- If parentheses may stand behind a bare name, then one may open there. -/
theorem viable_of_opening {Class : List Token → Prop} {tokens whole : List Token} {token : Token}
    (htoken : token.kind ∈ opening tokens)
    (h : EndsBare tokens → Viable Class (whole ++ [.lparen, .rparen])) :
    Viable Class (whole ++ [token]) := by
  obtain ⟨hlparen, hbare⟩ := mem_opening.mp htoken
  have hwhole := h hbare
  rw [List.append_cons] at hwhole
  cases token with
  | lparen => exact hwhole.of_append
  | _ => cases hlparen

theorem EndsBare.of_behind {front tokens : List Token} (htokens : tokens ≠ [])
    (h : EndsBare (front ++ tokens)) : EndsBare tokens := by
  obtain ⟨p, hp⟩ := h
  rw [List.getLast?_append_of_ne_nil _ htokens] at hp
  exact ⟨p, hp⟩

theorem IsAtom.ne_nil {tokens : List Token} {a : Atom} (h : IsAtom tokens a) : tokens ≠ [] := by
  cases h <;> exact List.cons_ne_nil _ _

theorem IsBody.ne_nil {tokens : List Token} {as : List Atom} (h : IsBody tokens as) :
    tokens ≠ [] := by
  cases h with
  | last hatom => exact hatom.ne_nil
  | more => simp

/-- A bare name may be given parentheses. -/
theorem IsAtom.apply {tokens : List Token} {a : Atom} (h : IsAtom tokens a)
    (hbare : EndsBare tokens) : Derives IsAtom (tokens ++ [.lparen, .rparen]) := by
  obtain ⟨p, hp⟩ := hbare
  cases h with
  | bare q => exact ⟨_, .empty q⟩
  | empty q => cases hp
  | applied q hterms =>
    rw [← List.cons_append, ← List.cons_append, List.getLast?_concat] at hp
    cases hp

theorem IsBody.apply {tokens : List Token} {as : List Atom} (h : IsBody tokens as)
    (hbare : EndsBare tokens) : Derives IsBody (tokens ++ [.lparen, .rparen]) := by
  induction h with
  | last hatom =>
    obtain ⟨a, ha⟩ := hatom.apply hbare
    exact ⟨_, .last ha⟩
  | more hatom hbody ih =>
    rw [List.append_cons] at hbare
    obtain ⟨as, has⟩ := ih (hbare.of_behind hbody.ne_nil)
    rw [List.append_assoc, List.cons_append]
    exact ⟨_, .more hatom has⟩

/-- A further atom may stand behind a body. -/
theorem IsBody.concat {tokens tokens' : List Token} {as : List Atom} {a : Atom}
    (h : IsBody tokens as) (h' : IsAtom tokens' a) :
    IsBody (tokens ++ .comma :: tokens') (as ++ [a]) := by
  induction h with
  | last hatom => exact .more hatom (.last h')
  | more hatom _ ih =>
    rw [List.append_assoc, List.cons_append]
    exact .more hatom ih

/-! ## Bodies and clauses -/

/-- Where an atom has to begin, in front of the body or behind a comma, and within an atom. -/
def bodyPlaces : Places where
  first := atomPlaces.first
  later := atomPlaces.first :: atomPlaces.later

/-- Behind a head, and behind a body, whose last atom may be a bare name. -/
def clausePlaces : Places where
  first := bodyPlaces.first
  later := [⟨[.period, .implies], []⟩, ⟨[.period, .implies], [.lparen]⟩, ⟨[.period], [.comma]⟩,
    ⟨[.period], [.comma, .lparen]⟩] ++ bodyPlaces.first :: bodyPlaces.later

theorem stuckAt_readBody {ls : List Lexeme} {e : Stop × List Lexeme}
    (h : readBody ls = .error e) : StuckAt (Derives IsBody) readBody bodyPlaces ls e := by
  fun_induction readBody ls with
  | case1 ls e' hatom =>
    cases h
    refine (stuckAt_readAtom hatom).inside rfl (List.subset_cons_self _ _) ?_
      fun ls e => readBody_of_error
    rintro part ⟨a, ha⟩
    exact .of_class ⟨_, .last ha⟩
  | case2 => cases h
  | case3 ls a offset rest hatom hlt e' hbody ih =>
    cases h
    obtain ⟨front, rfl, hfront⟩ := isAtom_of_readAtom hatom
    rw [List.append_cons]
    refine (ih hbody).behind (front ++ [⟨.comma, offset⟩]) (by simp) ?_ ?_ ?_
    · decide
    · rintro part ⟨as, has⟩
      rw [tokensOf_append, List.append_assoc]
      exact .of_class ⟨_, .more hfront has⟩
    · intro ls e hls
      rw [List.append_assoc, List.singleton_append,
        readBody_of_comma (readAtom_of_isAtom hfront fun _ => by simp [NotNext]), hls]
  | case4 => cases h

/-- Behind a head the clause may end, or a body begin. -/
theorem stuckBehind_head {front : List Lexeme} {head : Atom}
    (hhead : IsAtom (tokensOf front) head) :
    StuckBehind (Derives IsClause) readClause front
      ⟨[.period, .implies], opening (tokensOf front)⟩ where
  can_follow token htoken := viable_of_opening htoken fun hbare =>
    viable_isClause_head (hhead.apply hbare)
  stuck rest hrest := by
    simp only [Place.kinds, List.cons_append, List.nil_append, List.mem_cons, not_or] at hrest
    obtain ⟨hperiod, himplies, hopening⟩ := hrest
    exact readClause_of_notNext (readAtom_of_isAtom hhead (notNext_of_opening hopening))
      (notNext_of_nextKind hperiod) (notNext_of_nextKind himplies)

theorem readAtom_of_implies {front : List Lexeme} {head : Atom}
    (hhead : IsAtom (tokensOf front) head) (offset : Nat) (ls : List Lexeme) :
    readAtom (front ++ ⟨.implies, offset⟩ :: ls) = .ok (head, ⟨.implies, offset⟩ :: ls) :=
  readAtom_of_isAtom hhead fun _ => by simp [NotNext]

/-- Behind a body, there may be a further atom, or the clause ends. -/
theorem stuckBehind_ruleBody {front front' : List Lexeme} {head : Atom} {body : List Atom}
    (hhead : IsAtom (tokensOf front) head) (hbody : IsBody (tokensOf front') body)
    (offset : Nat) :
    StuckBehind (Derives IsClause) readClause (front ++ ⟨.implies, offset⟩ :: front')
      ⟨[.period], .comma :: opening (tokensOf front')⟩ where
  can_follow token htoken := by
    have hrule : ∀ tokens, Derives IsBody (tokensOf front' ++ tokens) →
        Viable (Derives IsClause) (tokensOf (front ++ ⟨.implies, offset⟩ :: front') ++ tokens) := by
      intro tokens htokens
      rw [tokensOf_append, tokensOf_cons, List.append_assoc, List.cons_append]
      exact viable_isClause_body ⟨_, hhead⟩ htokens
    rcases List.mem_cons.mp htoken with hcomma | hopening
    · have hmore := hrule [.comma, .symbol ""] ⟨_, hbody.concat (.bare "")⟩
      rw [List.append_cons] at hmore
      cases token with
      | comma => exact hmore.of_append
      | _ => cases hcomma
    · exact viable_of_opening hopening fun hbare => hrule _ (hbody.apply hbare)
  stuck rest hrest := by
    simp only [Place.kinds, List.cons_append, List.nil_append, List.mem_cons, not_or] at hrest
    obtain ⟨hperiod, hcomma, hopening⟩ := hrest
    have hread := readBody_of_isBody hbody rfl (notNext_of_opening hopening)
      (notNext_of_nextKind hcomma)
    rw [List.append_assoc, List.cons_append]
    exact readClause_of_body_notNext (readAtom_of_implies hhead offset _) hread
      (notNext_of_nextKind hperiod)

theorem stuckAt_readClause {ls rest : List Lexeme} {expected : List Token.Kind}
    (h : readClause ls = .error (.stuck expected, rest)) :
    StuckAt (Derives IsClause) readClause clausePlaces ls (.stuck expected, rest) := by
  unfold readClause at h
  split at h
  · next hatom =>
    cases h
    refine (stuckAt_readAtom hatom).inside rfl (by decide)
      (fun part => viable_isClause_head) fun ls e hls => ?_
    rw [readClause, hls]
  · split at h <;> cases h
  · next head offset ls' hatom =>
    obtain ⟨front, rfl, hhead⟩ := isAtom_of_readAtom hatom
    split at h
    · next hread =>
      cases h
      rw [List.append_cons]
      refine (stuckAt_readBody hread).behind (front ++ [⟨.implies, offset⟩]) (by simp) ?_ ?_ ?_
      · decide
      · intro part hpart
        rw [tokensOf_append, List.append_assoc]
        exact viable_isClause_body ⟨_, hhead⟩ hpart
      · intro ls e hls
        rw [List.append_assoc, List.singleton_append, readClause, readAtom_of_implies hhead]
        simp only [hls]
    · cases h
    · next body after _ hread =>
      cases h
      obtain ⟨front', rfl, hbody⟩ := isBody_of_readBody hread
      refine ⟨_, _, rfl, ?_, Or.inr ⟨?_, ?_⟩, stuckBehind_ruleBody hhead hbody offset⟩
      · rw [List.append_assoc, List.cons_append]
      · exact fun hnil => List.cons_ne_nil _ _ (List.append_eq_nil_iff.mp hnil).2
      · rcases opening_eq (tokensOf front') with heq | heq <;> simp [heq, clausePlaces]
  · next head after _ _ hatom =>
    cases h
    obtain ⟨front, rfl, hhead⟩ := isAtom_of_readAtom hatom
    refine ⟨_, _, rfl, rfl, Or.inr ⟨?_, ?_⟩, stuckBehind_head hhead⟩
    · exact fun hnil => hhead.ne_nil (congrArg tokensOf hnil)
    · rcases opening_eq (tokensOf front) with heq | heq <;> simp [heq, clausePlaces]

/-! ## Whole texts -/

/-- Where a clause may begin. -/
def programPlaces : Places where
  first := ⟨[.symbol], [.endOfText]⟩
  later := ⟨[.symbol], [.endOfText]⟩ :: clausePlaces.later

/-- Behind the atom, which may be a bare name, and behind its period. -/
def soleAtomPlaces : Places where
  first := atomPlaces.first
  later := [⟨[.endOfText], []⟩, ⟨[.endOfText], [.period]⟩, ⟨[.endOfText], [.period, .lparen]⟩] ++
    atomPlaces.later

theorem viable_sentence {α : Type} {R : List Token → α → Prop} {tokens : List Token}
    (h : Derives R tokens) : Viable (Sentence R) tokens := ⟨[.endOfText], tokens, h, rfl⟩

/-- The end may come in place of a clause, but this has been looked for before. -/
theorem stuckBehind_nothing :
    StuckBehind (Sentence IsProgram) readClauses [] programPlaces.first where
  can_follow token htoken := by
    cases token with
    | endOfText => exact .of_class ⟨[], ⟨[], .nil⟩, rfl⟩
    | _ => simp [programPlaces, Token.kind] at htoken
  stuck rest hrest := by
    have hatom : readAtom rest = stuck [.symbol] rest :=
      readAtom_of_not_symbol fun p => notNext_of_nextKind fun heq =>
        hrest (heq ▸ List.mem_cons_self)
    refine readClauses_of_error ?_ (by rw [List.nil_append, readClause, hatom]; rfl)
    rintro rfl
    exact hrest (by decide)

theorem stuckAt_readClauses {ls rest : List Lexeme} {expected : List Token.Kind}
    (h : readClauses ls = .error (.stuck expected, rest)) :
    StuckAt (Sentence IsProgram) readClauses programPlaces ls (.stuck expected, rest) := by
  fun_induction readClauses ls with
  | case1 => cases h
  | case2 ls hls e hclause =>
    cases h
    obtain ⟨front, p, hstop, rfl, hat, hbehind⟩ := stuckAt_readClause hclause
    rcases hat with ⟨rfl, rfl⟩ | ⟨hfront, hp⟩
    · exact ⟨[], programPlaces.first, hstop, rfl, Or.inl ⟨rfl, rfl⟩, stuckBehind_nothing⟩
    · refine ⟨front, p, hstop, rfl, Or.inr ⟨hfront, List.mem_cons_of_mem _ hp⟩,
        hbehind.within [] ?_ fun rest' hread => readClauses_of_error (by simp [hfront]) hread⟩
      rintro part ⟨c, hc⟩
      have hprogram := IsProgram.cons hc .nil
      rw [List.append_nil] at hprogram
      exact viable_sentence ⟨_, hprogram⟩
  | case3 => cases h
  | case4 ls hls c ls' hclause hlt e hrest ih =>
    cases h
    obtain ⟨⟨front, rfl, hfront⟩, hground⟩ := isClause_of_readClause hclause
    refine (ih hrest).behind front (fun hnil => hfront.ne_nil (congrArg tokensOf hnil)) ?_ ?_ ?_
    · decide
    · rintro part ⟨others, ⟨cs, hcs⟩, rfl⟩
      exact .of_class ⟨_, ⟨_, .cons hfront hcs⟩, (List.append_assoc _ _ _).symm⟩
    · intro ls e hls
      rw [readClauses_of_ok (readClause_of_isClause hfront hground rfl ls), hls]
      rfl

/-- Behind a sole atom there may be a period. -/
theorem stuckBehind_soleAtom {front : List Lexeme} {a : Atom} (ha : IsAtom (tokensOf front) a) :
    StuckBehind (Sentence IsSoleAtom) readSoleAtom front
      ⟨[.endOfText], .period :: opening (tokensOf front)⟩ where
  can_follow token htoken := by
    rcases List.mem_cons.mp htoken with hperiod | hopening
    · cases token with
      | period => exact viable_sentence ⟨_, .period ha⟩
      | _ => cases hperiod
    · refine viable_of_opening hopening fun hbare => ?_
      obtain ⟨a', ha'⟩ := ha.apply hbare
      exact viable_sentence ⟨_, .plain ha'⟩
  stuck rest hrest := by
    simp only [Place.kinds, List.cons_append, List.nil_append, List.mem_cons, not_or] at hrest
    obtain ⟨hend, hperiod, hopening⟩ := hrest
    refine readSoleAtom_of_notNext (readAtom_of_isAtom ha (notNext_of_opening hopening)) ?_
      (notNext_of_nextKind hperiod)
    rintro rfl
    exact hend rfl

/-- Behind the period there is nothing but the end. -/
theorem stuckBehind_period {front : List Lexeme} {a : Atom} (ha : IsAtom (tokensOf front) a)
    (offset : Nat) :
    StuckBehind (Sentence IsSoleAtom) readSoleAtom (front ++ [⟨.period, offset⟩])
      ⟨[.endOfText], []⟩ := by
  refine .of_stuck fun rest hrest => ?_
  have hread : readAtom (front ++ ⟨.period, offset⟩ :: rest) = .ok (a, ⟨.period, offset⟩ :: rest) :=
    readAtom_of_isAtom ha fun _ => by simp [NotNext]
  rw [List.append_assoc, List.singleton_append]
  refine readSoleAtom_of_period hread ?_
  rintro rfl
  exact hrest List.mem_cons_self

theorem stuckAt_readSoleAtom {ls rest : List Lexeme} {expected : List Token.Kind}
    (h : readSoleAtom ls = .error (.stuck expected, rest)) :
    StuckAt (Sentence IsSoleAtom) readSoleAtom soleAtomPlaces ls (.stuck expected, rest) := by
  unfold readSoleAtom at h
  split at h
  · next hatom =>
    cases h
    refine (stuckAt_readAtom hatom).inside rfl (by decide) ?_ fun ls e hls => ?_
    · rintro part ⟨a, ha⟩
      exact viable_sentence ⟨_, .plain ha⟩
    · simp only [readSoleAtom, hls]
  · cases h
  · cases h
  · next a offset after _ hatom =>
    cases h
    obtain ⟨front, rfl, ha⟩ := isAtom_of_readAtom hatom
    exact ⟨_, _, rfl, by simp, Or.inr ⟨by simp, by decide⟩, stuckBehind_period ha offset⟩
  · next a after _ _ _ hatom =>
    cases h
    obtain ⟨front, rfl, ha⟩ := isAtom_of_readAtom hatom
    refine ⟨_, _, rfl, rfl, Or.inr ⟨?_, ?_⟩, stuckBehind_soleAtom ha⟩
    · exact fun hnil => ha.ne_nil (congrArg tokensOf hnil)
    · rcases opening_eq (tokensOf front) with heq | heq <;> simp [heq, soleAtomPlaces]

section Judges

variable {α : Type} {rule : List Lexeme → Except (Stop × List Lexeme) α}
  {R : List Token → α → Prop} {ls : List Lexeme} {ending : Token.Ending}

/-- **What can follow where a rule is stuck** is what it asks for and what it overlooks. -/
theorem Judges.follows_iff (h : Judges rule R) {front : List Lexeme} {p : Place}
    (hadmits : Admits (Sentence R) (tokensOf front) p.asked)
    (hbehind : StuckBehind (Sentence R) rule front p) (k : Token.Kind) :
    MayFollow (Sentence R) (tokensOf front) k ↔ k ∈ p.kinds := by
  constructor
  · rintro ⟨token, rfl, more, hsentence⟩
    rw [List.append_assoc, List.singleton_append] at hsentence
    obtain ⟨rest, hderives, hnext⟩ := exists_of_sentence hsentence
    by_contra hk
    rw [← nextKind_of_head? hnext] at hk
    exact h.not_stuck hderives (hbehind.stuck rest hk)
  · intro hk
    obtain ⟨token, rfl⟩ := exists_token k
    rcases List.mem_append.mp hk with hk | hk
    · exact ⟨token, rfl, hadmits.2 token hk⟩
    · exact ⟨token, rfl, hbehind.can_follow token hk⟩

/-- What a rule reports as unexpected stands at one of its places, and the report lists what the
rule asks for there. -/
theorem Judges.exists_place (h : Judges rule R) {ps : Places}
    (hplaces : ∀ {rest expected}, rule ls = .error (.stuck expected, rest) →
      StuckAt (Sentence R) rule ps ls (.stuck expected, rest))
    {e : UnexpectedToken} (he : Reader.verdict (rule ls) ending = .error (.unexpected e)) :
    ∃ front l after p, ls.map .ok ++ [ending.item] = front.map .ok ++ .ok l :: after ∧
      e.offset = l.offset ∧ p.asked = e.expected ∧ p ∈ ps.first :: ps.later ∧
        ∀ k, MayFollow (Sentence R) (tokensOf front) k ↔ k ∈ p.kinds := by
  obtain ⟨rest, l, after, hstuck, hitems, -, hoffset⟩ := Reader.stuck_of_verdict he
  obtain ⟨front, p, hstop, rfl, hat, hbehind⟩ := hplaces hstuck
  obtain ⟨_, front', hstop', heq, hadmits⟩ := h.stuckIn hstuck
  obtain rfl := List.append_cancel_right heq
  cases hstop'
  have hasked : p.asked = e.expected := (Stop.stuck.inj hstop).symm
  rw [← hasked] at hadmits
  refine ⟨front, l, after, p, ?_, hoffset, hasked, ?_, h.follows_iff hadmits hbehind⟩
  · rw [List.map_append, List.append_assoc, hitems]
  · rcases hat with ⟨-, rfl⟩ | ⟨-, hp⟩
    · exact List.mem_cons_self
    · exact List.mem_cons_of_mem _ hp

end Judges

/-- What is overlooked at the places of a program, told by what can follow. -/
theorem asked_iff_of_mem_programPlaces {p : Place}
    (hp : p ∈ programPlaces.first :: programPlaces.later) (k : Token.Kind) :
    k ∈ p.asked ↔ k ∈ p.kinds ∧ k ≠ .lparen ∧ k ≠ .endOfText ∧
      (k = .rparen → .comma ∈ p.kinds) ∧ (k = .comma → .rparen ∈ p.kinds) := by
  revert p
  cases k <;> decide

theorem asked_iff_of_mem_soleAtomPlaces {p : Place}
    (hp : p ∈ soleAtomPlaces.first :: soleAtomPlaces.later) (k : Token.Kind) :
    k ∈ p.asked ↔ k ∈ p.kinds ∧ k ≠ .lparen ∧ k ≠ .period ∧
      (k = .rparen → .comma ∈ p.kinds) := by
  revert p
  cases k <;> decide

end Grammar

open Grammar in
/-- **What a report of an unexpected token lists.**  The reading of clauses lists the kinds of
tokens that can follow those in front of the unexpected one, but leaves out

* an opening parenthesis;
* the end, where a further clause may begin as well;
* a closing parenthesis where no comma can follow, that is, right behind an opening one;
* a comma where no closing parenthesis can follow, that is, behind an atom of a body.

The reading of a single atom leaves out parentheses in the same way, and the period that may stand
behind the atom. -/
theorem Clause.expected_iff_mayFollow (text : String) :
    let items := (TokenStream.ofText text).drain.1
    (∀ e, Clause.listOfText text = .error (.unexpected e) →
      ∃ front l rest, items = front.map .ok ++ .ok l :: rest ∧ e.offset = l.offset ∧
        ∀ k, k ∈ e.expected ↔
          MayFollow (Sentence IsProgram) (tokensOf front) k ∧ k ≠ .lparen ∧ k ≠ .endOfText ∧
            (k = .rparen → MayFollow (Sentence IsProgram) (tokensOf front) .comma) ∧
            (k = .comma → MayFollow (Sentence IsProgram) (tokensOf front) .rparen)) ∧
    ∀ e, Atom.ofText text = .error (.unexpected e) →
      ∃ front l rest, items = front.map .ok ++ .ok l :: rest ∧ e.offset = l.offset ∧
        ∀ k, k ∈ e.expected ↔
          MayFollow (Sentence IsSoleAtom) (tokensOf front) k ∧ k ≠ .lparen ∧ k ≠ .period ∧
            (k = .rparen → MayFollow (Sentence IsSoleAtom) (tokensOf front) .comma) := by
  intro items
  have hitems : items =
      (Token.scan 0 text.toList).1.map .ok ++ [(Token.scan 0 text.toList).2.item] := rfl
  have hclauses := Reader.ofWhole_readAll readClauses text
  have hatom := Reader.ofWhole_readAll readSoleAtom text
  simp only [Clause.listOfText, Atom.ofText, Reader.readClauses, Reader.readAtom, hclauses, hatom,
    hitems]
  refine ⟨fun e he => ?_, fun e he => ?_⟩
  · obtain ⟨front, l, rest, p, hfront, hoffset, hasked, hp, hfollows⟩ :=
      judges_readClauses.exists_place stuckAt_readClauses he
    refine ⟨front, l, rest, hfront, hoffset, fun k => ?_⟩
    rw [← hasked, hfollows, hfollows, hfollows]
    exact asked_iff_of_mem_programPlaces hp k
  · obtain ⟨front, l, rest, p, hfront, hoffset, hasked, hp, hfollows⟩ :=
      judges_readSoleAtom.exists_place stuckAt_readSoleAtom he
    refine ⟨front, l, rest, hfront, hoffset, fun k => ?_⟩
    rw [← hasked, hfollows, hfollows]
    exact asked_iff_of_mem_soleAtomPlaces hp k

open Grammar in
/-- In place of the name `q`, a parenthesis could open the arguments of `p`, but the report asks for
a period or an arrow only. -/
theorem Clause.parenthesis_left_out : ∃ e rest,
    Clause.listOfText "p q." = .error (.unexpected e) ∧
      (TokenStream.ofText "p q.").drain.1 =
        .ok ⟨.symbol "p", 0⟩ :: .ok ⟨.symbol "q", e.offset⟩ :: rest ∧
      MayFollow (Sentence IsProgram) [.symbol "p"] .lparen ∧ .lparen ∉ e.expected := by
  have hclause : IsProgram [.symbol "p", .lparen, .rparen, .period] [.fact ⟨"p", []⟩] :=
    .cons (.fact (.empty "p")) .nil
  refine ⟨⟨(Token.symbol "q").text, [.period, .implies], 2⟩,
    [.ok ⟨.period, 3⟩, .ok ⟨.endOfText, 4⟩], by decide +kernel, by decide +kernel,
    ⟨.lparen, rfl, [.rparen, .period, .endOfText], _, ⟨_, hclause⟩, rfl⟩, by decide⟩

end Datalog
