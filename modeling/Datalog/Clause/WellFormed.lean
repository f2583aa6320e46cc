import Datalog.Clause

/-!
# Well-formed clauses

A clause makes sense on its own if it is a ground fact, or a rule whose head variables all occur
in its body; then every instance of it that a database supports is a ground atom.  A list of
clauses makes sense if, moreover, no predicate is used with two arities.

* `IllFormed`: the ways to violate these conditions.
* `Clause.check`: the first violation that a clause commits on its own.
-/

namespace Datalog

/-- A violation of the conditions on clauses. -/
inductive IllFormed where
  /-- A predicate occurs with an arity other than that of its first occurrence. -/
  | arityMismatch (predicate : Predicate) (expected found : Nat)
  /-- A fact has a variable; the offset is that of the fact in the text it was read from, and 0
  for a fact that was not read from a text. -/
  | ungroundedFact (predicate : Predicate) (x : Variable) (offset : Nat)
  /-- A variable of the head does not occur in the body. -/
  | unboundHeadVariable (predicate : Predicate) (x : Variable)
  deriving DecidableEq, Repr

/-- The report of a violation. -/
def IllFormed.message : IllFormed → String
  | arityMismatch p expected found =>
    "predicate `" ++ p ++ "` used with arity " ++ toString found ++ ", but it has arity " ++
      toString expected
  | ungroundedFact p x offset =>
    "fact `" ++ p ++ "` at offset " ++ toString offset ++ " contains variable `" ++ x ++ "`"
  | unboundHeadVariable p x =>
    "variable `" ++ x ++ "` appears in the head of a `" ++ p ++ "` rule but not in its body"

/-- The first violation that a clause commits on its own: the first variable of a fact, or the
first head variable of a rule that its body does not bind. -/
def Clause.check : Clause → Except IllFormed Unit
  | .fact a =>
    match a.vars with
    | [] => .ok ()
    | x :: _ => .error (.ungroundedFact a.predicate x 0)
  | .rule r =>
    match r.head.vars.find? fun x => x ∉ r.bodyVars with
    | none => .ok ()
    | some x => .error (.unboundHeadVariable r.head.predicate x)

end Datalog
