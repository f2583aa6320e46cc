import Datalog.Clause

/-!
# The notation of clauses

How clauses are written: `p(a, X)` for an atom, `p(a).` for a fact and `h(X) :- b(X), c().` for a
rule.  Arguments and body atoms are separated by a comma and a blank, and the parentheses stay when
there are no arguments.  A rule with an empty body is written `h() :- .`, which no reader accepts;
every other clause whose names are spelled as the notation demands is read back from its text.
-/

namespace Datalog

/-- The given texts with a comma and a blank between neighbours. -/
def commaSeparated : List String → String
  | [] => ""
  | [s] => s
  | s :: rest => s ++ ", " ++ commaSeparated rest

/-- A constant or a variable is written as its name. -/
def Term.text : Term → String
  | .const c => c
  | .var x => x

/-- The predicate with its arguments in parentheses. -/
def Atom.text (a : Atom) : String :=
  a.predicate ++ "(" ++ commaSeparated (a.terms.map Term.text) ++ ")"

/-- Head, arrow, body and period. -/
def Rule.text (r : Rule) : String :=
  r.head.text ++ " :- " ++ commaSeparated (r.body.map Atom.text) ++ "."

/-- A fact ends with a period, as a rule does. -/
def Clause.text : Clause → String
  | .fact a => a.text ++ "."
  | .rule r => r.text

/-- One clause per line. -/
def Clause.listText : List Clause → String
  | [] => ""
  | c :: cs => c.text ++ "\n" ++ listText cs

end Datalog
