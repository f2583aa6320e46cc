import Datalog.Clause.WellFormed
import Datalog.Token.Scan

/-!
# The grammar of clauses

    program := clause*
    clause  := atom '.' | atom ':-' atom (',' atom)* '.'
    atom    := SYMBOL | SYMBOL '(' (term (',' term)*)? ')'
    term    := SYMBOL | VARIABLE

The functions below read these classes from a list of lexemes, from left to right and with one
lexeme of foresight.  What they return on success is the value read and the lexemes that follow
it.

## Why a failure carries the lexemes that are left

A reader is *stuck* at the first lexeme that no alternative accepts, and that lexeme is the head
of the list it returns.  If the list is empty then reading is stuck at the end of the text, and
only whoever knows how the text ends can say what is there: the end itself, or a place where no
token starts.  So the grammar needs no knowledge of either, and an unreadable place counts exactly
when reading gets that far.

A fact with a variable is refused as soon as its period has been read.

* `readTerms`, `readAtom`, `readBody`, `readClause`: the classes of the grammar.
* `readClauses`: a whole program.
* `readSoleAtom`: a text that is a single atom, with or without a period.
-/

namespace Datalog
namespace Grammar

/-- Why reading went no further. -/
inductive Stop where
  /-- What is there belongs to none of the classes that may follow. -/
  | stuck (expected : List Token.Kind)
  /-- A clause was complete but not well-formed. -/
  | illFormed (e : IllFormed)
  deriving DecidableEq, Repr

/-- A value and the lexemes behind it, or the reason to stop and the lexemes from there on. -/
abbrev Reading (α : Type) := Except (Stop × List Lexeme) (α × List Lexeme)

/-- Reading is stuck in front of the given lexemes. -/
def stuck {α : Type} (expected : List Token.Kind) (rest : List Lexeme) : Reading α :=
  .error (.stuck expected, rest)

/-- The term that a token stands for. -/
def term? : Token → Option Term
  | .symbol name => some (.const name)
  | .var name => some (.var name)
  | _ => none

/-- The arguments of an atom, at least one, with the parenthesis that closes them. -/
def readTerms : List Lexeme → Reading (List Term)
  | [] => stuck [.symbol, .var] []
  | l :: rest =>
    match term? l.token with
    | none => stuck [.symbol, .var] (l :: rest)
    | some t =>
      match rest with
      | ⟨.comma, _⟩ :: rest' =>
        match readTerms rest' with
        | .ok (ts, after) => .ok (t :: ts, after)
        | .error e => .error e
      | ⟨.rparen, _⟩ :: rest' => .ok ([t], rest')
      | _ => stuck [.comma, .rparen] rest

/-- A predicate, with or without arguments in parentheses. -/
def readAtom : List Lexeme → Reading Atom
  | ⟨.symbol p, _⟩ :: ⟨.lparen, _⟩ :: ⟨.rparen, _⟩ :: rest => .ok (⟨p, []⟩, rest)
  | ⟨.symbol p, _⟩ :: ⟨.lparen, _⟩ :: rest =>
    match readTerms rest with
    | .ok (ts, after) => .ok (⟨p, ts⟩, after)
    | .error e => .error e
  | ⟨.symbol p, _⟩ :: rest => .ok (⟨p, []⟩, rest)
  | ls => stuck [.symbol] ls

/-! ## Reading takes lexemes away -/

theorem length_lt_of_readTerms {ls rest : List Lexeme} {ts : List Term}
    (h : readTerms ls = .ok (ts, rest)) : rest.length < ls.length := by
  fun_induction readTerms ls generalizing ts rest <;> simp_all [stuck]
  all_goals grind

theorem length_lt_of_readAtom {ls rest : List Lexeme} {a : Atom}
    (h : readAtom ls = .ok (a, rest)) : rest.length < ls.length := by
  unfold readAtom at h
  split at h
  · cases h
    simp only [List.length_cons]
    omega
  · split at h
    · next hts =>
      cases h
      have := length_lt_of_readTerms hts
      simp only [List.length_cons]
      omega
    · cases h
  · cases h
    simp
  · cases h

/-- The atoms of a body, at least one, separated by commas. -/
def readBody (ls : List Lexeme) : Reading (List Atom) :=
  match h : readAtom ls with
  | .error e => .error e
  | .ok (a, ⟨.comma, _⟩ :: rest) =>
    have : rest.length < ls.length := Nat.lt_of_succ_lt (length_lt_of_readAtom h)
    match readBody rest with
    | .ok (as, after) => .ok (a :: as, after)
    | .error e => .error e
  | .ok (a, rest) => .ok ([a], rest)
termination_by ls.length

/-- The offset of the first lexeme. -/
def startOffset : List Lexeme → Nat
  | [] => 0
  | l :: _ => l.offset

/-- A fact or a rule, with its period. -/
def readClause (ls : List Lexeme) : Reading Clause :=
  match readAtom ls with
  | .error e => .error e
  | .ok (head, ⟨.period, _⟩ :: rest) =>
    match head.vars with
    | [] => .ok (.fact head, rest)
    | x :: _ => .error (.illFormed (.ungroundedFact head.predicate x (startOffset ls)), rest)
  | .ok (head, ⟨.implies, _⟩ :: rest) =>
    match readBody rest with
    | .error e => .error e
    | .ok (body, ⟨.period, _⟩ :: after) => .ok (.rule ⟨head, body⟩, after)
    | .ok (_, after) => stuck [.period] after
  | .ok (_, rest) => stuck [.period, .implies] rest

theorem length_lt_of_readBody {ls rest : List Lexeme} {as : List Atom}
    (h : readBody ls = .ok (as, rest)) : rest.length < ls.length := by
  fun_induction readBody ls generalizing as rest with
  | case1 => cases h
  | case2 ls a off rest' hatom hlt as' after hbody ih =>
    cases h
    have := ih hbody
    omega
  | case3 => cases h
  | case4 ls a rest' hne hatom =>
    cases h
    exact length_lt_of_readAtom hatom

theorem length_lt_of_readClause {ls rest : List Lexeme} {c : Clause}
    (h : readClause ls = .ok (c, rest)) : rest.length < ls.length := by
  unfold readClause at h
  split at h
  · cases h
  · next hatom =>
    have := length_lt_of_readAtom hatom
    simp only [List.length_cons] at this
    split at h
    · cases h
      omega
    · cases h
  · next hatom =>
    have := length_lt_of_readAtom hatom
    simp only [List.length_cons] at this
    split at h
    · cases h
    · next hbody =>
      have := length_lt_of_readBody hbody
      simp only [List.length_cons] at this
      cases h
      omega
    · cases h
  · cases h

/-! ## Whole texts -/

/-- All clauses up to the end. -/
def readClauses (ls : List Lexeme) : Except (Stop × List Lexeme) (List Clause) :=
  if ls = [] then .ok []
  else
    match h : readClause ls with
    | .error e => .error e
    | .ok (c, rest) =>
      have : rest.length < ls.length := length_lt_of_readClause h
      match readClauses rest with
      | .ok cs => .ok (c :: cs)
      | .error e => .error e
termination_by ls.length

/-- One atom, with or without a period, and then the end. -/
def readSoleAtom (ls : List Lexeme) : Except (Stop × List Lexeme) Atom :=
  match readAtom ls with
  | .error e => .error e
  | .ok (a, []) => .ok a
  | .ok (a, [⟨.period, _⟩]) => .ok a
  | .ok (_, ⟨.period, _⟩ :: rest) => .error (.stuck [.endOfText], rest)
  | .ok (_, rest) => .error (.stuck [.endOfText], rest)

end Grammar
end Datalog
