import Datalog.Relation

/-!
# Substitutions

A substitution binds variables to values, in the order in which they were first bound.  It grows
while the atoms of a rule body are matched against tuples from left to right.

* `Atom.pattern`: what a substitution says about the tuples that an atom may match.
* `Atom.match?`: match an atom against a tuple, binding the variables that are still free.
* `Atom.instance?`: the tuple that an atom becomes, once all its variables are bound.
-/

namespace Datalog

/-- Values for variables, in the order in which the variables were bound. -/
abbrev Substitution := Table Variable Constant

/-- The value of a term, if it is fixed or bound. -/
def Term.value? (s : Substitution) : Term → Option Constant
  | .const c => some c
  | .var x => s.find? x

namespace Atom

/-- The arguments of an atom as a pattern: fixed and bound arguments are values, free ones are
holes. -/
def pattern (a : Atom) (s : Substitution) : Pattern := a.terms.map (Term.value? s)

/-- Match arguments against the components of a tuple from left to right.  A constant must be equal
to its component; a variable that is bound must have its component as value, and a free one is
bound to it. -/
def matchTerms : List Term → Tuple → Substitution → Option Substitution
  | [], [], s => some s
  | .const c :: ts, v :: vs, s => if c = v then matchTerms ts vs s else none
  | .var x :: ts, v :: vs, s =>
    match s.find? x with
    | some w => if w = v then matchTerms ts vs s else none
    | none => matchTerms ts vs (s.insertNew x v)
  | _, _, _ => none

/-- The least extension of a substitution under which the atom becomes the tuple. -/
def match? (a : Atom) (t : Tuple) (s : Substitution) : Option Substitution :=
  matchTerms a.terms t s

/-- The values of arguments, if all of them are fixed or bound. -/
def instanceOf? (s : Substitution) : List Term → Option Tuple
  | [] => some []
  | t :: ts =>
    match t.value? s with
    | none => none
    | some v => (instanceOf? s ts).map (v :: ·)

/-- The tuple that an atom becomes under a substitution of all its variables. -/
def instance? (a : Atom) (s : Substitution) : Option Tuple := instanceOf? s a.terms

end Atom

end Datalog
