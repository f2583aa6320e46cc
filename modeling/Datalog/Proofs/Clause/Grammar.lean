import Datalog.Clause.Grammar
import Mathlib.Data.List.Basic

/-!
# The grammar as a relation, and what the readers accept

The classes of the grammar are stated here as relations between tokens and what they stand for, one
rule of inference for each alternative, without any order of reading.  The readers of
`Datalog.Clause.Grammar` accept exactly these relations, apart from facts with variables, which the
grammar derives and the readers refuse.

* `Grammar.IsTerm`, `IsTerms`, `IsAtom`, `IsBody`, `IsClause`, `IsProgram`: the classes.
* `isAtom_of_readAtom` and its likes: what is read is derived from the lexemes taken.
* `readAtom_of_isAtom` and its likes: what can be derived is read.
* `IsProgram.unique`: tokens derive one list of clauses at most.

## Where one lexeme of foresight is enough

A symbol is an atom, and it is also the beginning of one with arguments; an atom is a body, and also
the beginning of a longer one.  What follows decides, so the readers of these two classes accept a
derivation only in front of lexemes that do not go on with it.  No such condition is needed for a
clause, since it ends with its period.
-/

namespace Datalog
namespace Grammar

/-- `term := SYMBOL | VARIABLE`: a symbol is a constant. -/
inductive IsTerm : Token → Term → Prop
  | symbol (name : String) : IsTerm (.symbol name) (.const name)
  | var (name : String) : IsTerm (.var name) (.var name)

/-- Arguments: `term (',' term)*`. -/
inductive IsTerms : List Token → List Term → Prop
  | last {token : Token} {t : Term} : IsTerm token t → IsTerms [token] [t]
  | more {token : Token} {t : Term} {tokens : List Token} {ts : List Term} :
      IsTerm token t → IsTerms tokens ts → IsTerms (token :: .comma :: tokens) (t :: ts)

/-- `atom := SYMBOL | SYMBOL '(' (term (',' term)*)? ')'`: without arguments, the parentheses make
no difference. -/
inductive IsAtom : List Token → Atom → Prop
  | bare (p : Predicate) : IsAtom [.symbol p] ⟨p, []⟩
  | empty (p : Predicate) : IsAtom [.symbol p, .lparen, .rparen] ⟨p, []⟩
  | applied (p : Predicate) {tokens : List Token} {ts : List Term} :
      IsTerms tokens ts → IsAtom (.symbol p :: .lparen :: (tokens ++ [.rparen])) ⟨p, ts⟩

/-- A body: `atom (',' atom)*`. -/
inductive IsBody : List Token → List Atom → Prop
  | last {tokens : List Token} {a : Atom} : IsAtom tokens a → IsBody tokens [a]
  | more {tokens tokens' : List Token} {a : Atom} {as : List Atom} :
      IsAtom tokens a → IsBody tokens' as → IsBody (tokens ++ .comma :: tokens') (a :: as)

/-- `clause := atom '.' | atom ':-' atom (',' atom)* '.'`. -/
inductive IsClause : List Token → Clause → Prop
  | fact {tokens : List Token} {a : Atom} :
      IsAtom tokens a → IsClause (tokens ++ [.period]) (.fact a)
  | rule {tokens tokens' : List Token} {head : Atom} {body : List Atom} :
      IsAtom tokens head → IsBody tokens' body →
        IsClause (tokens ++ .implies :: (tokens' ++ [.period])) (.rule ⟨head, body⟩)

/-- `program := clause*`. -/
inductive IsProgram : List Token → List Clause → Prop
  | nil : IsProgram [] []
  | cons {tokens tokens' : List Token} {c : Clause} {cs : List Clause} :
      IsClause tokens c → IsProgram tokens' cs → IsProgram (tokens ++ tokens') (c :: cs)

/-- The facts among clauses have no variables. -/
def GroundFacts (cs : List Clause) : Prop := ∀ a, .fact a ∈ cs → a.vars = []

theorem groundFacts_nil : GroundFacts [] := fun _ ha => absurd ha List.not_mem_nil

theorem groundFacts_cons_iff {c : Clause} {cs : List Clause} :
    GroundFacts (c :: cs) ↔ GroundFacts [c] ∧ GroundFacts cs := by
  constructor
  · exact fun h => ⟨fun a ha => h a (List.mem_singleton.mp ha ▸ List.mem_cons_self),
      fun a ha => h a (List.mem_cons_of_mem c ha)⟩
  · rintro ⟨hc, hcs⟩ a ha
    rcases List.mem_cons.mp ha with heq | ha
    · exact hc a (List.mem_singleton.mpr heq)
    · exact hcs a ha

/-- The tokens of lexemes. -/
def tokensOf (ls : List Lexeme) : List Token := ls.map Lexeme.token

@[simp] theorem tokensOf_nil : tokensOf [] = [] := rfl

@[simp] theorem tokensOf_cons (l : Lexeme) (ls : List Lexeme) :
    tokensOf (l :: ls) = l.token :: tokensOf ls := rfl

@[simp] theorem tokensOf_append (ls ls' : List Lexeme) :
    tokensOf (ls ++ ls') = tokensOf ls ++ tokensOf ls' := List.map_append

theorem term?_eq_some_iff {token : Token} {t : Term} : term? token = some t ↔ IsTerm token t := by
  constructor
  · intro h
    cases token <;> cases h
    · exact .symbol _
    · exact .var _
  · rintro (_ | _) <;> rfl

/-! ## What is read is derived from the lexemes taken -/

theorem isTerms_of_readTerms {ls rest : List Lexeme} {ts : List Term}
    (h : readTerms ls = .ok (ts, rest)) :
    ∃ front close, ls = front ++ close :: rest ∧ close.token = .rparen ∧
      IsTerms (tokensOf front) ts := by
  fun_induction readTerms ls generalizing ts rest with
  | case1 => cases h
  | case2 => cases h
  | case3 l t hterm offset rest' ts' after hrest ih =>
    cases h
    obtain ⟨front, close, rfl, hclose, hterms⟩ := ih hrest
    exact ⟨l :: ⟨.comma, offset⟩ :: front, close, rfl, hclose,
      .more (term?_eq_some_iff.mp hterm) hterms⟩
  | case4 => cases h
  | case5 l t hterm offset rest' =>
    cases h
    exact ⟨[l], ⟨.rparen, offset⟩, rfl, rfl, .last (term?_eq_some_iff.mp hterm)⟩
  | case6 => cases h

theorem isAtom_of_readAtom {ls rest : List Lexeme} {a : Atom} (h : readAtom ls = .ok (a, rest)) :
    ∃ front, ls = front ++ rest ∧ IsAtom (tokensOf front) a := by
  unfold readAtom at h
  split at h
  · next p o₁ o₂ o₃ rest' =>
    cases h
    exact ⟨[⟨.symbol p, o₁⟩, ⟨.lparen, o₂⟩, ⟨.rparen, o₃⟩], rfl, .empty p⟩
  · next p o₁ o₂ rest' _ =>
    split at h
    · next ts after hterms =>
      cases h
      obtain ⟨front, close, rfl, hclose, hfront⟩ := isTerms_of_readTerms hterms
      refine ⟨⟨.symbol p, o₁⟩ :: ⟨.lparen, o₂⟩ :: (front ++ [close]), by simp, ?_⟩
      have happlied := IsAtom.applied p hfront
      rw [← hclose] at happlied
      simpa using happlied
    · cases h
  · next p o₁ rest' _ _ =>
    cases h
    exact ⟨[⟨.symbol p, o₁⟩], rfl, .bare p⟩
  · cases h

theorem isBody_of_readBody {ls rest : List Lexeme} {as : List Atom}
    (h : readBody ls = .ok (as, rest)) :
    ∃ front, ls = front ++ rest ∧ IsBody (tokensOf front) as := by
  fun_induction readBody ls generalizing as rest with
  | case1 => cases h
  | case2 ls a offset rest' hatom hlt as' after hbody ih =>
    cases h
    obtain ⟨front, rfl, hfront⟩ := isAtom_of_readAtom hatom
    obtain ⟨front', rfl, hfront'⟩ := ih hbody
    refine ⟨front ++ ⟨.comma, offset⟩ :: front', by simp, ?_⟩
    rw [tokensOf_append]
    exact .more hfront hfront'
  | case3 => cases h
  | case4 ls a rest' hne hatom =>
    cases h
    obtain ⟨front, rfl, hfront⟩ := isAtom_of_readAtom hatom
    exact ⟨front, rfl, .last hfront⟩

/-- A clause that is read is derived, and if it is a fact then it is ground. -/
theorem isClause_of_readClause {ls rest : List Lexeme} {c : Clause}
    (h : readClause ls = .ok (c, rest)) :
    (∃ front, ls = front ++ rest ∧ IsClause (tokensOf front) c) ∧ GroundFacts [c] := by
  unfold readClause at h
  split at h
  · cases h
  · next head offset rest' hatom =>
    split at h
    · next hvars =>
      cases h
      obtain ⟨front, rfl, hfront⟩ := isAtom_of_readAtom hatom
      refine ⟨⟨front ++ [⟨.period, offset⟩], by simp, ?_⟩, fun a ha => ?_⟩
      · rw [tokensOf_append]
        exact .fact hfront
      · rw [Clause.fact.inj (List.mem_singleton.mp ha)]
        exact hvars
    · cases h
  · next head offset rest' hatom =>
    split at h
    · cases h
    · next body offset' after hbody =>
      cases h
      obtain ⟨front, rfl, hfront⟩ := isAtom_of_readAtom hatom
      obtain ⟨front', rfl, hfront'⟩ := isBody_of_readBody hbody
      refine ⟨⟨front ++ ⟨.implies, offset⟩ :: (front' ++ [⟨.period, offset'⟩]), by simp, ?_⟩,
        fun a ha => ?_⟩
      · rw [tokensOf_append, tokensOf_cons, tokensOf_append]
        exact .rule hfront hfront'
      · cases List.mem_singleton.mp ha
    · cases h
  · cases h

theorem isProgram_of_readClauses {ls : List Lexeme} {cs : List Clause}
    (h : readClauses ls = .ok cs) : IsProgram (tokensOf ls) cs ∧ GroundFacts cs := by
  fun_induction readClauses ls generalizing cs with
  | case1 =>
    cases h
    exact ⟨.nil, groundFacts_nil⟩
  | case2 => cases h
  | case3 ls hne c rest hclause hlt cs' hrest ih =>
    cases h
    obtain ⟨⟨front, rfl, hfront⟩, hground⟩ := isClause_of_readClause hclause
    obtain ⟨hprogram, hgrounds⟩ := ih hrest
    refine ⟨?_, groundFacts_cons_iff.mpr ⟨hground, hgrounds⟩⟩
    rw [tokensOf_append]
    exact .cons hfront hprogram
  | case4 => cases h

/-! ## What can be derived is read -/

theorem tokensOf_eq_cons_iff {ls : List Lexeme} {token : Token} {tokens : List Token} :
    tokensOf ls = token :: tokens ↔
      ∃ offset ls', ls = ⟨token, offset⟩ :: ls' ∧ tokensOf ls' = tokens := by
  constructor
  · intro h
    obtain ⟨l, ls', rfl, rfl, htokens⟩ := List.map_eq_cons_iff.mp h
    exact ⟨l.offset, ls', rfl, htokens⟩
  · rintro ⟨offset, ls', rfl, rfl⟩
    rfl

theorem tokensOf_eq_append_iff {ls : List Lexeme} {tokens tokens' : List Token} :
    tokensOf ls = tokens ++ tokens' ↔
      ∃ front back, ls = front ++ back ∧ tokensOf front = tokens ∧ tokensOf back = tokens' :=
  List.map_eq_append_iff

theorem tokensOf_eq_nil_iff {ls : List Lexeme} : tokensOf ls = [] ↔ ls = [] := List.map_eq_nil_iff

/-- No lexeme of a class comes next. -/
def NotNext (token : Token) (ls : List Lexeme) : Prop := (tokensOf ls).head? ≠ some token

theorem readTerms_of_isTerms {tokens : List Token} {ts : List Term} (h : IsTerms tokens ts)
    {front : List Lexeme} (hfront : tokensOf front = tokens) (offset : Nat) (rest : List Lexeme) :
    readTerms (front ++ ⟨.rparen, offset⟩ :: rest) = .ok (ts, rest) := by
  induction h generalizing front with
  | last hterm =>
    obtain ⟨o, ls, rfl, hls⟩ := tokensOf_eq_cons_iff.mp hfront
    obtain rfl := tokensOf_eq_nil_iff.mp hls
    simp [readTerms, term?_eq_some_iff.mpr hterm]
  | more hterm _ ih =>
    obtain ⟨o, ls, rfl, hls⟩ := tokensOf_eq_cons_iff.mp hfront
    obtain ⟨o', ls', rfl, hls'⟩ := tokensOf_eq_cons_iff.mp hls
    simp [readTerms, term?_eq_some_iff.mpr hterm, ih hls']

/-- Arguments do not begin with a closing parenthesis. -/
theorem IsTerms.exists_cons {tokens : List Token} {ts : List Term} (h : IsTerms tokens ts) :
    ∃ first rest, tokens = first :: rest ∧ first ≠ .rparen := by
  cases h with
  | last hterm => exact ⟨_, _, rfl, by rintro rfl; cases hterm⟩
  | more hterm _ => exact ⟨_, _, rfl, by rintro rfl; cases hterm⟩

theorem readAtom_bare (p : Predicate) (offset : Nat) {rest : List Lexeme}
    (hrest : NotNext .lparen rest) :
    readAtom (⟨.symbol p, offset⟩ :: rest) = .ok (⟨p, []⟩, rest) := by
  match rest, hrest with
  | [], _ => rfl
  | ⟨token, o⟩ :: rest, hrest =>
    cases token with
    | lparen => exact absurd rfl hrest
    | _ => rfl

theorem readAtom_of_lparen (p : Predicate) (offset offset' : Nat) {ls : List Lexeme}
    (hnext : NotNext .rparen ls) :
    readAtom (⟨.symbol p, offset⟩ :: ⟨.lparen, offset'⟩ :: ls) =
      match readTerms ls with
      | .ok (ts, after) => .ok (⟨p, ts⟩, after)
      | .error e => .error e := by
  match ls, hnext with
  | [], _ => rfl
  | ⟨token, o⟩ :: ls, hnext =>
    cases token with
    | rparen => exact absurd rfl hnext
    | _ => rfl

/-- The last token is a symbol, which a parenthesis would make the beginning of an atom with
arguments. -/
def EndsBare (tokens : List Token) : Prop := ∃ p, tokens.getLast? = some (.symbol p)

theorem EndsBare.behind {tokens : List Token} (h : EndsBare tokens) (front : List Token) :
    EndsBare (front ++ tokens) := by
  obtain ⟨p, hp⟩ := h
  exact ⟨p, by rw [List.getLast?_append, hp, Option.some_or]⟩

theorem readAtom_of_isAtom {front rest : List Lexeme} {a : Atom} (h : IsAtom (tokensOf front) a)
    (hrest : EndsBare (tokensOf front) → NotNext .lparen rest) :
    readAtom (front ++ rest) = .ok (a, rest) := by
  generalize hfront : tokensOf front = tokens at h hrest
  cases h with
  | bare p =>
    obtain ⟨o, ls, rfl, hls⟩ := tokensOf_eq_cons_iff.mp hfront
    obtain rfl := tokensOf_eq_nil_iff.mp hls
    exact readAtom_bare p o (hrest ⟨p, rfl⟩)
  | empty p =>
    obtain ⟨o₁, ls₁, rfl, hls₁⟩ := tokensOf_eq_cons_iff.mp hfront
    obtain ⟨o₂, ls₂, rfl, hls₂⟩ := tokensOf_eq_cons_iff.mp hls₁
    obtain ⟨o₃, ls₃, rfl, hls₃⟩ := tokensOf_eq_cons_iff.mp hls₂
    obtain rfl := tokensOf_eq_nil_iff.mp hls₃
    rfl
  | applied p hterms =>
    obtain ⟨o₁, ls₁, rfl, hls₁⟩ := tokensOf_eq_cons_iff.mp hfront
    obtain ⟨o₂, ls₂, rfl, hls₂⟩ := tokensOf_eq_cons_iff.mp hls₁
    obtain ⟨ls, close, rfl, hls, hclose⟩ := tokensOf_eq_append_iff.mp hls₂
    obtain ⟨o₃, ls₃, rfl, hls₃⟩ := tokensOf_eq_cons_iff.mp hclose
    obtain rfl := tokensOf_eq_nil_iff.mp hls₃
    simp only [List.cons_append, List.append_assoc, List.nil_append]
    have hread := readTerms_of_isTerms hterms hls o₃ rest
    rw [readAtom_of_lparen p o₁ o₂ ?_, hread]
    obtain ⟨first, tokens, rfl, hfirst⟩ := hterms.exists_cons
    obtain ⟨o, ls', rfl, -⟩ := tokensOf_eq_cons_iff.mp hls
    exact fun heq => hfirst (Option.some.inj heq)

theorem readBody_of_comma {ls rest : List Lexeme} {a : Atom} {offset : Nat}
    (hatom : readAtom ls = .ok (a, ⟨.comma, offset⟩ :: rest)) :
    readBody ls =
      match readBody rest with
      | .ok (as, after) => .ok (a :: as, after)
      | .error e => .error e := by
  rw [readBody]
  split
  · next heq =>
    rw [hatom] at heq
    cases heq
  · next heq =>
    rw [hatom] at heq
    cases heq
    rfl
  · next hne heq =>
    rw [hatom] at heq
    cases heq
    exact absurd rfl (hne _ _)

theorem readBody_of_notNext {ls rest : List Lexeme} {a : Atom}
    (hatom : readAtom ls = .ok (a, rest)) (hrest : NotNext .comma rest) :
    readBody ls = .ok ([a], rest) := by
  rw [readBody]
  split
  · next heq =>
    rw [hatom] at heq
    cases heq
  · next heq =>
    rw [hatom] at heq
    cases heq
    exact absurd rfl hrest
  · next hne heq =>
    rw [hatom] at heq
    cases heq
    rfl

theorem readBody_of_isBody {tokens : List Token} {as : List Atom} (h : IsBody tokens as)
    {front rest : List Lexeme} (hfront : tokensOf front = tokens)
    (hparen : EndsBare tokens → NotNext .lparen rest) (hcomma : NotNext .comma rest) :
    readBody (front ++ rest) = .ok (as, rest) := by
  induction h generalizing front with
  | last hatom =>
    rw [← hfront] at hatom hparen
    exact readBody_of_notNext (readAtom_of_isAtom hatom hparen) hcomma
  | more hatom _ ih =>
    obtain ⟨ls, ls', rfl, rfl, hls'⟩ := tokensOf_eq_append_iff.mp hfront
    obtain ⟨o, ls'', rfl, hls''⟩ := tokensOf_eq_cons_iff.mp hls'
    have hlast := ih hls'' fun hbare => hparen ((hbare.behind [.comma]).behind _)
    rw [List.append_assoc, List.cons_append,
      readBody_of_comma (readAtom_of_isAtom hatom fun _ => by simp [NotNext]), hlast]

/-- Reading a derived clause finds its head, what comes between head and body, and its period. -/
theorem IsClause.readParts {tokens : List Token} {c : Clause} (h : IsClause tokens c)
    {front : List Lexeme} (hfront : tokensOf front = tokens) (rest : List Lexeme) :
    (∃ a offset, c = .fact a ∧ readAtom (front ++ rest) = .ok (a, ⟨.period, offset⟩ :: rest)) ∨
    ∃ head body offset offset' ls, c = .rule ⟨head, body⟩ ∧
      readAtom (front ++ rest) = .ok (head, ⟨.implies, offset⟩ :: ls) ∧
      readBody ls = .ok (body, ⟨.period, offset'⟩ :: rest) := by
  cases h with
  | fact hatom =>
    obtain ⟨ls, stop, rfl, rfl, hstop⟩ := tokensOf_eq_append_iff.mp hfront
    obtain ⟨o, ls', rfl, hls'⟩ := tokensOf_eq_cons_iff.mp hstop
    obtain rfl := tokensOf_eq_nil_iff.mp hls'
    rw [List.append_assoc]
    exact Or.inl ⟨_, o, rfl, readAtom_of_isAtom hatom fun _ => by simp [NotNext]⟩
  | rule hhead hbody =>
    obtain ⟨ls, tail, rfl, rfl, htail⟩ := tokensOf_eq_append_iff.mp hfront
    obtain ⟨o, tail', rfl, htail'⟩ := tokensOf_eq_cons_iff.mp htail
    obtain ⟨ls', stop, rfl, hls', hstop⟩ := tokensOf_eq_append_iff.mp htail'
    obtain ⟨o', ls'', rfl, hls''⟩ := tokensOf_eq_cons_iff.mp hstop
    obtain rfl := tokensOf_eq_nil_iff.mp hls''
    simp only [List.append_assoc, List.cons_append, List.nil_append]
    refine Or.inr ⟨_, _, o, o', ls' ++ ⟨.period, o'⟩ :: rest, rfl, ?_, ?_⟩
    · exact readAtom_of_isAtom hhead fun _ => by simp [NotNext]
    · exact readBody_of_isBody hbody hls' (fun _ => by simp [NotNext]) (by simp [NotNext])

theorem readClause_of_isClause {tokens : List Token} {c : Clause} (h : IsClause tokens c)
    (hground : GroundFacts [c]) {front : List Lexeme} (hfront : tokensOf front = tokens)
    (rest : List Lexeme) : readClause (front ++ rest) = .ok (c, rest) := by
  rcases h.readParts hfront rest with
    ⟨a, o, rfl, hatom⟩ | ⟨head, body, o, o', ls, rfl, hhead, hbody⟩
  · have hvars : a.vars = [] := hground a (List.mem_singleton.mpr rfl)
    simp only [readClause, hatom, hvars]
  · simp only [readClause, hhead, hbody]

theorem IsClause.ne_nil {tokens : List Token} {c : Clause} (h : IsClause tokens c) :
    tokens ≠ [] := by
  cases h <;> simp

theorem readClauses_of_ok {ls rest : List Lexeme} {c : Clause}
    (hclause : readClause ls = .ok (c, rest)) :
    readClauses ls = (readClauses rest).map (c :: ·) := by
  have hls : ls ≠ [] := by
    rintro rfl
    exact absurd (length_lt_of_readClause hclause) (Nat.not_lt_zero _)
  rw [readClauses, if_neg hls]
  split
  · next heq =>
    rw [hclause] at heq
    cases heq
  · next heq =>
    rw [hclause] at heq
    cases heq
    cases readClauses rest <;> rfl

/-- Clauses whose facts are ground are read in front of anything. -/
theorem readClauses_append {tokens : List Token} {cs : List Clause} (h : IsProgram tokens cs)
    (hground : GroundFacts cs) {front : List Lexeme} (hfront : tokensOf front = tokens)
    (rest : List Lexeme) : readClauses (front ++ rest) = (readClauses rest).map (cs ++ ·) := by
  induction h generalizing front with
  | nil =>
    rw [tokensOf_eq_nil_iff.mp hfront, List.nil_append]
    cases readClauses rest <;> rfl
  | cons hclause _ ih =>
    obtain ⟨front, front', rfl, hfront, hfront'⟩ := tokensOf_eq_append_iff.mp hfront
    obtain ⟨hc, hcs⟩ := groundFacts_cons_iff.mp hground
    rw [List.append_assoc, readClauses_of_ok (readClause_of_isClause hclause hc hfront _),
      ih hcs hfront']
    cases readClauses rest <;> rfl

/-- **Reading clauses** succeeds exactly on the tokens of a program whose facts are ground, and
gives its clauses. -/
theorem readClauses_eq_ok_iff {ls : List Lexeme} {cs : List Clause} :
    readClauses ls = .ok cs ↔ IsProgram (tokensOf ls) cs ∧ GroundFacts cs := by
  refine ⟨isProgram_of_readClauses, fun ⟨hprogram, hground⟩ => ?_⟩
  have hread := readClauses_append hprogram hground rfl []
  have hend : readClauses [] = .ok [] := by rw [readClauses, if_pos rfl]
  rw [List.append_nil, hend] at hread
  rw [hread, Except.map, List.append_nil]

/-- **Reading a sole atom** succeeds exactly on the tokens of an atom, with or without a period. -/
theorem readSoleAtom_eq_ok_iff {ls : List Lexeme} {a : Atom} :
    readSoleAtom ls = .ok a ↔ ∃ tokens, IsAtom tokens a ∧
      (tokensOf ls = tokens ∨ tokensOf ls = tokens ++ [.period]) := by
  constructor
  · intro h
    unfold readSoleAtom at h
    split at h
    · cases h
    · next hatom =>
      cases h
      obtain ⟨front, rfl, hfront⟩ := isAtom_of_readAtom hatom
      exact ⟨_, hfront, Or.inl (by rw [List.append_nil])⟩
    · next hatom =>
      cases h
      obtain ⟨front, rfl, hfront⟩ := isAtom_of_readAtom hatom
      exact ⟨_, hfront, Or.inr (tokensOf_append _ _)⟩
    · cases h
    · cases h
  · rintro ⟨tokens, hatom, hls | hls⟩
    · have hread : readAtom (ls ++ []) = .ok (a, []) :=
        readAtom_of_isAtom (hls ▸ hatom) fun _ => by simp [NotNext]
      rw [List.append_nil] at hread
      simp only [readSoleAtom, hread]
    · obtain ⟨front, stop, rfl, rfl, hstop⟩ := tokensOf_eq_append_iff.mp hls
      obtain ⟨o, ls', rfl, hls'⟩ := tokensOf_eq_cons_iff.mp hstop
      obtain rfl := tokensOf_eq_nil_iff.mp hls'
      have hread : readAtom (front ++ [⟨.period, o⟩]) = .ok (a, [⟨.period, o⟩]) :=
        readAtom_of_isAtom hatom fun _ => by simp [NotNext]
      simp only [readSoleAtom, hread]

/-! ## One derivation at most -/

theorem exists_lexemes (tokens : List Token) : ∃ ls, tokensOf ls = tokens := by
  induction tokens with
  | nil => exact ⟨[], rfl⟩
  | cons token tokens ih =>
    obtain ⟨ls, hls⟩ := ih
    exact ⟨⟨token, 0⟩ :: ls, by rw [tokensOf_cons, hls]⟩

/-- What a clause is, and where it ends, is determined by the tokens. -/
theorem IsClause.unique {tokens tokens' rest rest' : List Token} {c c' : Clause}
    (h : IsClause tokens c) (h' : IsClause tokens' c') (heq : tokens ++ rest = tokens' ++ rest') :
    c = c' ∧ rest = rest' := by
  obtain ⟨ls, hls⟩ := exists_lexemes (tokens ++ rest)
  obtain ⟨front, back, rfl, hfront, rfl⟩ := tokensOf_eq_append_iff.mp hls
  obtain ⟨front', back', hsame, hfront', rfl⟩ := tokensOf_eq_append_iff.mp (hls.trans heq)
  have hread' := h'.readParts hfront' back'
  rw [← hsame] at hread'
  rcases h.readParts hfront back with
    ⟨a, o, rfl, hatom⟩ | ⟨head, body, o, o', ls, rfl, hhead, hbody⟩
  · rw [hatom] at hread'
    rcases hread' with ⟨a', o₁, rfl, heq'⟩ | ⟨head', body', o₁, o₁', ls₁, rfl, heq', -⟩
    · cases heq'
      exact ⟨rfl, rfl⟩
    · cases heq'
  · rw [hhead] at hread'
    rcases hread' with ⟨a', o₁, rfl, heq'⟩ | ⟨head', body', o₁, o₁', ls₁, rfl, heq', hbody'⟩
    · cases heq'
    · cases heq'
      rw [hbody] at hbody'
      cases hbody'
      exact ⟨rfl, rfl⟩

/-- **Tokens derive one list of clauses at most.** -/
theorem IsProgram.unique {tokens : List Token} {cs cs' : List Clause} (h : IsProgram tokens cs)
    (h' : IsProgram tokens cs') : cs = cs' := by
  induction h generalizing cs' with
  | nil =>
    generalize htokens : ([] : List Token) = tokens at h'
    cases h' with
    | nil => rfl
    | cons hclause _ => exact absurd (List.append_eq_nil_iff.mp htokens.symm).1 hclause.ne_nil
  | @cons tokens tokens' c cs hclause _ ih =>
    generalize htokens : tokens ++ tokens' = all at h'
    cases h' with
    | nil => exact absurd (List.append_eq_nil_iff.mp htokens).1 hclause.ne_nil
    | cons hclause' hrest' =>
      obtain ⟨rfl, rfl⟩ := hclause.unique hclause' htokens
      rw [ih hrest']

end Grammar
end Datalog
