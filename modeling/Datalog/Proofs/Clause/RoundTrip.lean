import Datalog.Proofs.Clause.Reading
import Datalog.Proofs.Program.Batches
import Datalog.Proofs.Token.Spelling

/-!
# Programs that are read back from their text

The text of a program is read as the same program if and only if all its names are spelled as the
notation demands and no rule has an empty body (`Program.reads_back_iff_wellSpelled`).

* `Term.WellSpelled`, `Atom.WellSpelled`, `Clause.WellSpelled`, `Program.WellSpelled`: the
  condition.
* `Clause.writes_text`: the text of a well-spelled clause stands for tokens that derive it.
* `Clause.wellSpelled_of_listOfText`: what is read is well spelled.

## Why no odd name is read back

An odd name may well have a text that is read: the constant `X` is read as a variable, and the
predicate `p(a), q` as two atoms.  There is no need to follow such texts.  Whatever text was read,
the names of the clauses found are names of tokens, and so they are well spelled; a program that is
read back is one of these.
-/

namespace Datalog

/-! ## The condition -/

/-- A constant is spelled as a symbol, and a variable as a variable. -/
def Term.WellSpelled : Term → Prop
  | .const c => Token.IsSymbolName c
  | .var x => Token.IsVariableName x

/-- The predicate is spelled as a symbol, and the arguments are well spelled. -/
def Atom.WellSpelled (a : Atom) : Prop :=
  Token.IsSymbolName a.predicate ∧ ∀ t ∈ a.terms, t.WellSpelled

/-- The atoms are well spelled, and the body of a rule is not empty. -/
def Clause.WellSpelled : Clause → Prop
  | .fact a => a.WellSpelled
  | .rule r => r.head.WellSpelled ∧ r.body ≠ [] ∧ ∀ a ∈ r.body, a.WellSpelled

/-- All clauses are well spelled. -/
def Program.WellSpelled (p : Program) : Prop := ∀ c ∈ p.clauses, c.WellSpelled

instance : DecidablePred Term.WellSpelled
  | .const c => inferInstanceAs (Decidable (Token.IsSymbolName c))
  | .var x => inferInstanceAs (Decidable (Token.IsVariableName x))

instance : DecidablePred Atom.WellSpelled := fun _ => inferInstanceAs (Decidable (_ ∧ _))

instance : DecidablePred Clause.WellSpelled
  | .fact a => inferInstanceAs (Decidable a.WellSpelled)
  | .rule _ => inferInstanceAs (Decidable (_ ∧ _ ∧ _))

instance : DecidablePred Program.WellSpelled := fun p =>
  inferInstanceAs (Decidable (∀ c ∈ p.clauses, c.WellSpelled))

/-! ## Well-spelled clauses have texts that derive them -/

open Token (Writes EndsName)

/-- A term and the text behind it stand for one more token than that text. -/
theorem Term.writes_text {t : Term} (h : t.WellSpelled) {s : String} {tokens : List Token}
    (hs : EndsName s) (hw : Writes s tokens) :
    ∃ token, Grammar.IsTerm token t ∧ Writes (t.text ++ s) (token :: tokens) := by
  cases t with
  | const c => exact ⟨.symbol c, .symbol c, hw.symbol h hs⟩
  | var x => exact ⟨.var x, .var x, hw.var h hs⟩

theorem commaSeparated_cons_cons (s s' : String) (rest : List String) :
    commaSeparated (s :: s' :: rest) = s ++ (", " ++ commaSeparated (s' :: rest)) := by
  rw [commaSeparated, String.append_assoc]
  exact List.cons_ne_nil s' rest

/-- Arguments stand for tokens that derive them, once their parenthesis is closed. -/
theorem Term.writes_commaSeparated {ts : List Term} (hne : ts ≠ [])
    (h : ∀ t ∈ ts, t.WellSpelled) : ∃ tokens, Grammar.IsTerms tokens ts ∧
      Writes (commaSeparated (ts.map Term.text) ++ ")") (tokens ++ [.rparen]) := by
  induction ts with
  | nil => exact absurd rfl hne
  | cons t ts ih =>
    have ht := h t List.mem_cons_self
    cases ts with
    | nil =>
      obtain ⟨token, htoken, hw⟩ := Term.writes_text ht Token.endsName_rparen Token.writes_rparen
      exact ⟨[token], .last htoken, hw⟩
    | cons t' ts =>
      obtain ⟨tokens, htokens, hw⟩ :=
        ih (List.cons_ne_nil _ _) fun u hu => h u (List.mem_cons_of_mem t hu)
      obtain ⟨token, htoken, hw'⟩ := Term.writes_text ht (Token.endsName_comma.append _)
        (Token.writes_comma.append hw)
      refine ⟨token :: .comma :: tokens, .more htoken htokens, ?_⟩
      rw [List.map_cons, List.map_cons, commaSeparated_cons_cons, String.append_assoc,
        String.append_assoc]
      exact hw'

theorem Atom.writes_text {a : Atom} (h : a.WellSpelled) :
    ∃ tokens, Grammar.IsAtom tokens a ∧ Writes a.text tokens := by
  obtain ⟨p, ts⟩ := a
  obtain ⟨hp, hts⟩ := h
  cases ts with
  | nil =>
    have hw := (Token.writes_lparen.append Token.writes_rparen).symbol hp
      (Token.endsName_lparen.append _)
    refine ⟨_, .empty p, ?_⟩
    rw [Atom.text, List.map_nil, commaSeparated, String.append_empty, String.append_assoc]
    exact hw
  | cons t ts =>
    obtain ⟨tokens, htokens, hw⟩ := Term.writes_commaSeparated (List.cons_ne_nil t ts) hts
    refine ⟨_, .applied p htokens, ?_⟩
    have hw' := (Token.writes_lparen.append hw).symbol hp (Token.endsName_lparen.append _)
    rw [Atom.text, String.append_assoc, String.append_assoc]
    exact hw'

/-- Body atoms stand for tokens that derive them. -/
theorem Atom.writes_commaSeparated {as : List Atom} (hne : as ≠ [])
    (h : ∀ a ∈ as, a.WellSpelled) : ∃ tokens, Grammar.IsBody tokens as ∧
      Writes (commaSeparated (as.map Atom.text)) tokens := by
  induction as with
  | nil => exact absurd rfl hne
  | cons a as ih =>
    obtain ⟨tokens, hatom, hw⟩ := Atom.writes_text (h a List.mem_cons_self)
    cases as with
    | nil => exact ⟨tokens, .last hatom, hw⟩
    | cons a' as =>
      obtain ⟨tokens', hbody, hw'⟩ :=
        ih (List.cons_ne_nil _ _) fun b hb => h b (List.mem_cons_of_mem a hb)
      refine ⟨tokens ++ .comma :: tokens', .more hatom hbody, ?_⟩
      rw [List.map_cons, List.map_cons, commaSeparated_cons_cons]
      exact hw.append (Token.writes_comma.append hw')

theorem Clause.writes_text {c : Clause} (h : c.WellSpelled) :
    ∃ tokens, Grammar.IsClause tokens c ∧ Writes c.text tokens := by
  cases c with
  | fact a =>
    obtain ⟨tokens, hatom, hw⟩ := Atom.writes_text h
    exact ⟨_, .fact hatom, hw.append Token.writes_period⟩
  | rule r =>
    obtain ⟨hhead, hne, hbody⟩ := h
    obtain ⟨tokens, hatom, hw⟩ := Atom.writes_text hhead
    obtain ⟨tokens', hatoms, hw'⟩ := Atom.writes_commaSeparated hne hbody
    refine ⟨_, .rule hatom hatoms, ?_⟩
    rw [Clause.text, Rule.text, String.append_assoc, String.append_assoc]
    exact hw.append (Token.writes_implies.append (hw'.append Token.writes_period))

/-- Clauses, one per line, stand for tokens that derive them. -/
theorem Clause.writes_listText {cs : List Clause} (h : ∀ c ∈ cs, c.WellSpelled) :
    ∃ tokens, Grammar.IsProgram tokens cs ∧ Writes (Clause.listText cs) tokens := by
  induction cs with
  | nil => exact ⟨[], .nil, Token.writes_empty⟩
  | cons c cs ih =>
    obtain ⟨tokens, hclause, hw⟩ := Clause.writes_text (h c List.mem_cons_self)
    obtain ⟨tokens', hprogram, hw'⟩ := ih fun d hd => h d (List.mem_cons_of_mem c hd)
    refine ⟨tokens ++ tokens', .cons hclause hprogram, ?_⟩
    rw [Clause.listText, String.append_assoc]
    exact hw.append (Token.writes_newline.append hw')

theorem Token.Writes.lexes {text : String} {tokens : List Token} (h : Writes text tokens) :
    Token.Lexes text tokens := by
  obtain ⟨lexemes, stop, hscan, htokens⟩ := h.spells 0
  exact Token.lexes_iff.mpr ⟨lexemes, stop, hscan, htokens⟩

/-! ## What is read is well spelled -/

theorem Token.Lexes.wellSpelled {text : String} {tokens : List Token} (h : Token.Lexes text tokens)
    {token : Token} (htoken : token ∈ tokens) : token.WellSpelled := by
  obtain ⟨lexemes, stop, hscan, rfl⟩ := Token.lexes_iff.mp h
  obtain ⟨l, hl, rfl⟩ := List.mem_map.mp htoken
  have hmem : l ∈ (Token.scan 0 text.toList).1 := by
    rw [hscan]
    exact hl
  exact Token.wellSpelled_of_mem_scan hmem

namespace Grammar

variable {token : Token} {tokens : List Token}

theorem IsTerm.wellSpelled {t : Term} (h : IsTerm token t) (htoken : token.WellSpelled) :
    t.WellSpelled := by
  cases h with
  | symbol name => exact htoken
  | var name => exact htoken

theorem IsTerms.wellSpelled {ts : List Term} (h : IsTerms tokens ts)
    (htokens : ∀ token ∈ tokens, token.WellSpelled) : ∀ t ∈ ts, t.WellSpelled := by
  induction h with
  | last hterm =>
    intro t ht
    rw [List.mem_singleton.mp ht]
    exact hterm.wellSpelled (htokens _ List.mem_cons_self)
  | more hterm _ ih =>
    obtain ⟨hfirst, hrest⟩ := List.forall_mem_cons.mp htokens
    exact List.forall_mem_cons.mpr
      ⟨hterm.wellSpelled hfirst, ih (List.forall_mem_cons.mp hrest).2⟩

theorem IsAtom.wellSpelled {a : Atom} (h : IsAtom tokens a)
    (htokens : ∀ token ∈ tokens, token.WellSpelled) : a.WellSpelled := by
  cases h with
  | bare p => exact ⟨htokens (.symbol p) List.mem_cons_self, fun t ht => absurd ht List.not_mem_nil⟩
  | empty p =>
    exact ⟨htokens (.symbol p) List.mem_cons_self, fun t ht => absurd ht List.not_mem_nil⟩
  | applied p hterms =>
    obtain ⟨hp, hrest⟩ := List.forall_mem_cons.mp htokens
    have hargs := (List.forall_mem_append.mp (List.forall_mem_cons.mp hrest).2).1
    exact ⟨hp, hterms.wellSpelled hargs⟩

theorem IsBody.wellSpelled {as : List Atom} (h : IsBody tokens as)
    (htokens : ∀ token ∈ tokens, token.WellSpelled) : as ≠ [] ∧ ∀ a ∈ as, a.WellSpelled := by
  induction h with
  | last hatom =>
    refine ⟨List.cons_ne_nil _ _, fun a ha => ?_⟩
    rw [List.mem_singleton.mp ha]
    exact hatom.wellSpelled htokens
  | more hatom _ ih =>
    obtain ⟨hfirst, hrest⟩ := List.forall_mem_append.mp htokens
    have hothers := (ih (List.forall_mem_cons.mp hrest).2).2
    exact ⟨List.cons_ne_nil _ _, List.forall_mem_cons.mpr ⟨hatom.wellSpelled hfirst, hothers⟩⟩

theorem IsClause.wellSpelled {c : Clause} (h : IsClause tokens c)
    (htokens : ∀ token ∈ tokens, token.WellSpelled) : c.WellSpelled := by
  cases h with
  | fact hatom => exact hatom.wellSpelled (List.forall_mem_append.mp htokens).1
  | rule hhead hbody =>
    obtain ⟨hleft, hright⟩ := List.forall_mem_append.mp htokens
    have hatoms := (List.forall_mem_append.mp (List.forall_mem_cons.mp hright).2).1
    exact ⟨hhead.wellSpelled hleft, hbody.wellSpelled hatoms⟩

theorem IsProgram.wellSpelled {cs : List Clause} (h : IsProgram tokens cs)
    (htokens : ∀ token ∈ tokens, token.WellSpelled) : ∀ c ∈ cs, c.WellSpelled := by
  induction h with
  | nil => exact fun c hc => absurd hc List.not_mem_nil
  | cons hclause _ ih =>
    obtain ⟨hfirst, hrest⟩ := List.forall_mem_append.mp htokens
    exact List.forall_mem_cons.mpr ⟨hclause.wellSpelled hfirst, ih hrest⟩

end Grammar

/-- **Every clause that is read from a text is well spelled.** -/
theorem Clause.wellSpelled_of_listOfText {text : String} {cs : List Clause}
    (h : Clause.listOfText text = .ok cs) : ∀ c ∈ cs, c.WellSpelled := by
  obtain ⟨tokens, hlexes, hprogram, -⟩ := Clause.listOfText_eq_ok_iff.mp h
  exact hprogram.wellSpelled fun token htoken => hlexes.wellSpelled htoken

/-- **Well-spelled clauses are read from their text**, if their facts are ground. -/
theorem Clause.listOfText_listText {cs : List Clause} (h : ∀ c ∈ cs, c.WellSpelled)
    (hground : Grammar.GroundFacts cs) : Clause.listOfText (Clause.listText cs) = .ok cs := by
  obtain ⟨tokens, hprogram, hw⟩ := Clause.writes_listText h
  exact Clause.listOfText_eq_ok_iff.mpr ⟨tokens, hw.lexes, hprogram, hground⟩

/-! ## Programs -/

namespace Program

theorem reachable_of_ofText {text : String} {p : Program} (h : ofText text = .ok p) :
    p.Reachable := by
  obtain ⟨cs, -, hclauses⟩ := ofText_eq_ok_iff.mp h
  exact (reachable_of_ofClauses hclauses).1

theorem wellSpelled_of_ofText {text : String} {p : Program} (h : ofText text = .ok p) :
    p.WellSpelled := by
  obtain ⟨cs, hread, hclauses⟩ := ofText_eq_ok_iff.mp h
  obtain ⟨-, rfl⟩ := reachable_of_ofClauses hclauses
  exact Clause.wellSpelled_of_listOfText hread

theorem Reachable.ofText_text {p : Program} (hp : p.Reachable) (h : p.WellSpelled) :
    ofText p.text = .ok p := by
  have hground : Grammar.GroundFacts p.clauses :=
    fun a ha => hp.valid.vars_eq_nil (mem_facts.mpr ha)
  exact ofText_eq_ok_iff.mpr
    ⟨p.clauses, Clause.listOfText_listText h hground, hp.ofClauses_clauses⟩

/-- **The programs that are read back from their text** are those in which every name is spelled as
the notation demands and no rule has an empty body.  Anything read with the same clauses is the same
program, its catalog included.  What was read from a text once is read back. -/
theorem reads_back_iff_wellSpelled {p : Program} (hp : p.Reachable) :
    (ofText p.text = .ok p ↔ p.WellSpelled) ∧
    (∀ q, ofText p.text = .ok q → q.clauses = p.clauses → q = p) ∧
    ∀ text q, ofText text = .ok q → ofText q.text = .ok q := by
  refine ⟨⟨wellSpelled_of_ofText, hp.ofText_text⟩, ?_, ?_⟩
  · exact fun q hq hsame => (reachable_of_ofText hq).eq_of_clauses_eq hp hsame
  · exact fun text q h => (reachable_of_ofText h).ofText_text (wellSpelled_of_ofText h)

/-- A road, and trips along roads. -/
def trips : Program :=
  finalState (Program.extend
    [.fact ⟨"road", [.const "oslo", .const "bergen"]⟩, .fact ⟨"open", []⟩,
      .rule ⟨⟨"trip", [.var "X", .var "_to"]⟩, [⟨"road", [.var "X", .var "_to"]⟩, ⟨"open", []⟩]⟩]
    {})

/-- A road between places whose names are written as names of places are. -/
def capitalRoad : Program :=
  finalState (Program.extend [.fact ⟨"road", [.const "Oslo", .const "Bergen"]⟩] {})

theorem trips_read_back_capitalRoad_not :
    trips.text = "road(oslo, bergen).\nopen().\ntrip(X, _to) :- road(X, _to), open().\n" ∧
      ofText trips.text = .ok trips ∧ ofText capitalRoad.text ≠ .ok capitalRoad := by
  have htrips : trips.Reachable := .extend _ .empty
  have hcapital : capitalRoad.Reachable := .extend _ .empty
  refine ⟨by decide +kernel, ?_, fun h => ?_⟩
  · exact (reads_back_iff_wellSpelled htrips).1.mpr (by decide +kernel)
  · exact absurd ((reads_back_iff_wellSpelled hcapital).1.mp h) (by decide +kernel)

end Program
end Datalog
