import Datalog.Proofs.Clause.Grammar
import Datalog.Proofs.Outcome
import Datalog.Reader
import Datalog.Token.Stream

/-!
# The texts that are accepted

A text is accepted if its tokens can be derived from the grammar and its facts are ground, and then
it is read as the clauses that its tokens derive (`Clause.reads_exactly_the_grammar`).

* `Token.Lexes`: a text consists of certain tokens.
* `Reader.verdict`: what is reported of a text, for what a rule makes of its tokens.
* `Reader.ofWhole_readAll_eq_ok_iff`: a whole text is accepted if all of it can be split into
  tokens and the grammar accepts these.
* `Program.ofText_eq_ok_iff`: a program is read from a text by reading its clauses.
-/

namespace Datalog

/-- A text consists of tokens if these are what a stream over the text hands out, and then the end
of the text. -/
def Token.Lexes (text : String) (tokens : List Token) : Prop :=
  (TokenStream.ofText text).drain.1.map (Except.map Lexeme.token) =
    (tokens ++ [Token.endOfText]).map .ok

theorem Token.lexes_iff {text : String} {tokens : List Token} :
    Token.Lexes text tokens ↔ ∃ lexemes offset,
      Token.scan 0 text.toList = (lexemes, .finished offset) ∧
        Grammar.tokensOf lexemes = tokens := by
  have hitems : ∀ lexemes : List Lexeme, (lexemes.map Except.ok).map (Except.map Lexeme.token) =
      (Grammar.tokensOf lexemes).map (Except.ok : Token → Except UnreadableText Token) := by
    intro lexemes
    rw [Grammar.tokensOf, List.map_map, List.map_map]
    rfl
  have hok : Function.Injective (Except.ok : Token → Except UnreadableText Token) :=
    fun _ _ => Except.ok.inj
  have hdrain : (TokenStream.ofText text).drain.1 =
      (Token.scan 0 text.toList).1.map .ok ++ [(Token.scan 0 text.toList).2.item] := rfl
  rw [Lexes, hdrain, List.map_append, hitems, List.map_append]
  constructor
  · intro h
    obtain ⟨htokens, hend⟩ := List.append_inj' h rfl
    cases hending : (Token.scan 0 text.toList).2 with
    | finished offset =>
      refine ⟨_, offset, ?_, hok.list_map htokens⟩
      rw [← hending]
    | unreadable e =>
      rw [hending] at hend
      cases hend
  · rintro ⟨lexemes, offset, hscan, rfl⟩
    rw [hscan]
    rfl

namespace Reader

section Verdict

variable {α : Type} {result : Except (Grammar.Stop × List Lexeme) α} {ending : Token.Ending}

/-- What is reported of a text, for what a rule makes of its tokens and for how it ends. -/
def verdict : Except (Grammar.Stop × List Lexeme) α → Token.Ending → Except LoadError α
  | .ok a, .finished _ => .ok a
  | .ok _, .unreadable e => .error (.unreadable e)
  | .error (.illFormed e, _), _ => .error (.illFormed e)
  | .error (.stuck expected, []), .finished offset =>
    .error (.unexpected ⟨Token.endOfText.text, expected, offset⟩)
  | .error (.stuck _, []), .unreadable e => .error (.unreadable e)
  | .error (.stuck expected, l :: _), _ => .error (.unexpected ⟨l.token.text, expected, l.offset⟩)

theorem ofWhole_readAll (rule : List Lexeme → Except (Grammar.Stop × List Lexeme) α)
    (text : String) : ofWhole (readAll rule) text =
      verdict (rule (Token.scan 0 text.toList).1) (Token.scan 0 text.toList).2 := by
  unfold ofWhole readAll ofText ofTextWith
  obtain ⟨lexemes, ending⟩ := Token.scan 0 text.toList
  match hrule : rule lexemes, ending with
  | .ok a, .finished offset => simp only [hrule, verdict]
  | .ok a, .unreadable e => simp only [hrule, verdict]
  | .error (.illFormed e, rest), ending => simp only [hrule, verdict]
  | .error (.stuck expected, []), .finished offset => simp only [hrule, verdict, stopAtEnd, movedTo]
  | .error (.stuck expected, []), .unreadable e => simp only [hrule, verdict, stopAtEnd, movedTo]
  | .error (.stuck expected, l :: rest), ending => simp only [hrule, verdict]

theorem verdict_eq_ok_iff {a : α} :
    verdict result ending = .ok a ↔ result = .ok a ∧ ∃ offset, ending = .finished offset := by
  fun_cases verdict result ending <;> simp

/-- An unreadable place counts if the rule gets that far. -/
theorem verdict_eq_unreadable_iff {e : UnreadableText} :
    verdict result ending = .error (.unreadable e) ↔ ending = .unreadable e ∧
      ((∃ a, result = .ok a) ∨ ∃ expected, result = .error (.stuck expected, [])) := by
  fun_cases verdict result ending <;> simp

theorem verdict_eq_illFormed_iff {e : IllFormed} :
    verdict result ending = .error (.illFormed e) ↔
      ∃ rest, result = .error (.illFormed e, rest) := by
  fun_cases verdict result ending <;> simp

/-- The token that is reported is the one in front of which the rule is stuck, be it the end. -/
theorem stuck_of_verdict {e : UnexpectedToken}
    (h : verdict result ending = .error (.unexpected e)) :
    ∃ rest l after, result = .error (.stuck e.expected, rest) ∧
      rest.map .ok ++ [ending.item] = .ok l :: after ∧
        e.found = l.token.text ∧ e.offset = l.offset := by
  fun_cases verdict result ending with
  | case4 expected offset =>
    cases h
    exact ⟨[], ⟨.endOfText, offset⟩, [], rfl, rfl, rfl, rfl⟩
  | case6 expected l rest =>
    cases h
    exact ⟨l :: rest, l, _, rfl, rfl, rfl, rfl⟩
  | _ => cases h

end Verdict

/-- A whole text is accepted if all of it can be split into tokens and the rule accepts these. -/
theorem ofWhole_readAll_eq_ok_iff {α : Type}
    {rule : List Lexeme → Except (Grammar.Stop × List Lexeme) α} {text : String} {a : α} :
    ofWhole (readAll rule) text = .ok a ↔ ∃ lexemes offset,
      Token.scan 0 text.toList = (lexemes, .finished offset) ∧ rule lexemes = .ok a := by
  rw [ofWhole_readAll, verdict_eq_ok_iff]
  constructor
  · rintro ⟨hrule, offset, hending⟩
    exact ⟨_, offset, by rw [← hending], hrule⟩
  · rintro ⟨lexemes, offset, hscan, hrule⟩
    rw [hscan]
    exact ⟨hrule, offset, rfl⟩

end Reader

theorem Clause.listOfText_eq_ok_iff {text : String} {cs : List Clause} :
    Clause.listOfText text = .ok cs ↔ ∃ tokens, Token.Lexes text tokens ∧
      Grammar.IsProgram tokens cs ∧ Grammar.GroundFacts cs := by
  refine Reader.ofWhole_readAll_eq_ok_iff.trans ?_
  simp only [Token.lexes_iff, Grammar.readClauses_eq_ok_iff]
  constructor
  · rintro ⟨lexemes, offset, hscan, hprogram⟩
    exact ⟨_, ⟨lexemes, offset, hscan, rfl⟩, hprogram⟩
  · rintro ⟨tokens, ⟨lexemes, offset, hscan, rfl⟩, hprogram⟩
    exact ⟨lexemes, offset, hscan, hprogram⟩

theorem Atom.ofText_eq_ok_iff {text : String} {a : Atom} :
    Atom.ofText text = .ok a ↔ ∃ tokens, Grammar.IsAtom tokens a ∧
      (Token.Lexes text tokens ∨ Token.Lexes text (tokens ++ [.period])) := by
  refine Reader.ofWhole_readAll_eq_ok_iff.trans ?_
  simp only [Token.lexes_iff, Grammar.readSoleAtom_eq_ok_iff]
  constructor
  · rintro ⟨lexemes, offset, hscan, tokens, hatom, hlexemes | hlexemes⟩
    · exact ⟨tokens, hatom, Or.inl ⟨lexemes, offset, hscan, hlexemes⟩⟩
    · exact ⟨tokens, hatom, Or.inr ⟨lexemes, offset, hscan, hlexemes⟩⟩
  · rintro ⟨tokens, hatom, ⟨lexemes, offset, hscan, hlexemes⟩ | ⟨lexemes, offset, hscan, hlexemes⟩⟩
    · exact ⟨lexemes, offset, hscan, tokens, hatom, Or.inl hlexemes⟩
    · exact ⟨lexemes, offset, hscan, tokens, hatom, Or.inr hlexemes⟩

theorem Program.ofText_eq_ok_iff {text : String} {p : Program} :
    Program.ofText text = .ok p ↔
      ∃ cs, Clause.listOfText text = .ok cs ∧ Program.ofClauses cs = .ok p := by
  unfold Program.ofText Clause.listOfText Reader.ofWhole
  cases hread : Reader.readClauses (Reader.ofText text) with
  | error e r =>
    rw [Reader.readProgram, bind_of_eq_error _ hread]
    simp
  | ok cs r =>
    rw [Reader.readProgram, bind_of_eq_ok _ hread]
    cases hclauses : Program.ofClauses cs with
    | ok q =>
      have hpure : (pure q : EStateM LoadError Reader Program) r = .ok q r := rfl
      simp [hclauses, hpure]
    | error e =>
      have hthrow : (throw (.illFormed e) : EStateM LoadError Reader Program) r =
          .error (.illFormed e) r := rfl
      simp [hclauses, hthrow]

/-- **The readers accept exactly the grammar.**  A text is read as a list of clauses if it consists
of tokens from which this list can be derived, which is then the only one, and if all facts of the
list are ground.  It is read as an atom if it consists of the tokens of this atom, with or without a
period. -/
theorem Clause.reads_exactly_the_grammar (text : String) :
    (∀ cs, Clause.listOfText text = .ok cs ↔ ∃ tokens, Token.Lexes text tokens ∧
      Grammar.IsProgram tokens cs ∧ (∀ cs', Grammar.IsProgram tokens cs' → cs' = cs) ∧
        ∀ a, .fact a ∈ cs → a.vars = []) ∧
    ∀ a, Atom.ofText text = .ok a ↔ ∃ tokens, Grammar.IsAtom tokens a ∧
      (Token.Lexes text tokens ∨ Token.Lexes text (tokens ++ [.period])) := by
  refine ⟨fun cs => ?_, fun a => Atom.ofText_eq_ok_iff⟩
  rw [Clause.listOfText_eq_ok_iff]
  constructor
  · rintro ⟨tokens, hlexes, hprogram, hground⟩
    exact ⟨tokens, hlexes, hprogram, fun cs' h' => h'.unique hprogram, hground⟩
  · rintro ⟨tokens, hlexes, hprogram, -, hground⟩
    exact ⟨tokens, hlexes, hprogram, hground⟩

end Datalog
