/-!
# Clauses

A program is a list of clauses.  A *fact* `p(a, b).` states a ground atom; a *rule*
`p(X) :- q(X, Y), r(Y).` states its head for every substitution that makes all atoms of its body
true.

* `Term`, `Atom`, `Rule`, `Clause`: the terms of the language.
* `Atom.vars`: the variables of an atom, left to right, each as often as it occurs.
* `Atom.toTuple?`: a ground atom read as a row of a relation.

## Names

Predicates, constants and variables are names, that is, arbitrary strings.  The two sorts of
argument are told apart by the constructor of `Term` and never by the spelling of the name, so a
constant may be called `X` and a variable `x`; only the concrete notation of `Datalog.Clause.Text`
ties the sort of a name to its first letter.
-/

namespace Datalog

/-- The name of a relation. -/
abbrev Predicate := String

/-- A value that relations hold. -/
abbrev Constant := String

/-- The name of a variable, local to its clause. -/
abbrev Variable := String

/-- A row of a relation. -/
abbrev Tuple := List Constant

/-- An argument of an atom. -/
inductive Term where
  /-- A fixed value. -/
  | const (c : Constant)
  /-- A variable, which stands for the same value wherever it occurs in its clause. -/
  | var (x : Variable)
  deriving DecidableEq, Repr

/-- A predicate applied to arguments. -/
structure Atom where
  /-- The relation spoken of. -/
  predicate : Predicate
  /-- The arguments, in order. -/
  terms : List Term
  deriving DecidableEq, Repr

/-- The head holds whenever the whole body does. -/
structure Rule where
  /-- What the rule derives. -/
  head : Atom
  /-- What it needs, joined from left to right; a rule with an empty body holds as it stands. -/
  body : List Atom
  deriving DecidableEq, Repr

/-- A statement of a program. -/
inductive Clause where
  /-- An atom that holds. -/
  | fact (a : Atom)
  /-- An atom that holds under conditions. -/
  | rule (r : Rule)
  deriving DecidableEq, Repr

namespace Term

/-- The value of a fixed argument. -/
def const? : Term → Option Constant
  | const c => some c
  | var _ => none

/-- The variable of an open argument. -/
def var? : Term → Option Variable
  | const _ => none
  | var x => some x

end Term

namespace Atom

/-- The number of arguments. -/
def arity (a : Atom) : Nat := a.terms.length

/-- The variables from left to right, each as often as it occurs. -/
def vars (a : Atom) : List Variable := a.terms.filterMap Term.var?

/-- Whether the atom has no variable. -/
def isGround (a : Atom) : Bool := a.vars.isEmpty

/-- The values of the given arguments, if all of them are fixed. -/
def values? : List Term → Option Tuple
  | [] => some []
  | .const c :: ts => (values? ts).map (c :: ·)
  | .var _ :: _ => none

/-- A ground atom as a row of its relation. -/
def toTuple? (a : Atom) : Option Tuple := values? a.terms

end Atom

namespace Rule

/-- The variables of the body, in order, each as often as it occurs. -/
def bodyVars (r : Rule) : List Variable := r.body.flatMap Atom.vars

end Rule

namespace Clause

/-- The atom that the clause states. -/
def head : Clause → Atom
  | fact a => a
  | rule r => r.head

/-- Every atom of the clause, the head first. -/
def atoms : Clause → List Atom
  | fact a => [a]
  | rule r => r.head :: r.body

/-- The atom of a fact. -/
def fact? : Clause → Option Atom
  | fact a => some a
  | rule _ => none

/-- The rule of a clause that is one. -/
def rule? : Clause → Option Rule
  | fact _ => none
  | rule r => some r

end Clause

end Datalog
