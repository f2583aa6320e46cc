import Datalog.Clause.Json
import Datalog.Proofs.Settings.Json

/-!
# What is written as a JSON text is read again

Terms, atoms, rules, clauses and settings are written as JSON texts and read again.  Writing and
reading are programs of their own, which meet at the JSON value that each of them stands for: what
is written spells that value (`write_spelled`), and from every spelling of it the same is read
(`reads`).  Each level uses these two lemmas of the level below, and nothing else about it.

* `Term.json`, `Atom.json`, `Rule.json`, `Clause.json`, `Settings.members`: the values.
* `decode_write`: what is read from what is written.

## Settings that cannot work

A limit of zero rounds is written and read like any other, but it is refused as the settings are
checked.  A limit has 64 bits; a greater number is written, but it is no count for the reader.
-/

namespace Datalog

open JsonText

namespace Term

/-- The value that a term stands for. -/
def json : Term → Json
  | const c => .object [("Constant", .string c)]
  | var x => .object [("Variable", .string x)]

theorem write_spelled (t : Term) : Spells (.value t.json) t.write := by
  cases t with
  | const c => exact writeObject_spelled (.cons ⟨rfl, .string (writeString_spelled c)⟩ .nil)
  | var x => exact writeObject_spelled (.cons ⟨rfl, .string (writeString_spelled x)⟩ .nil)

theorem reads (t : Term) : Reads decoder t.json t := by
  cases t with
  | const c => exact .variant rfl ((reads_string c).map const)
  | var x => exact .variant rfl ((reads_string x).map var)

end Term

namespace Atom

/-- The value that an atom stands for. -/
def json (a : Atom) : Json :=
  .object [("predicate", .string a.predicate), ("terms", .array (a.terms.map Term.json))]

theorem write_spelled (a : Atom) : Spells (.value a.json) a.write :=
  writeObject_spelled (.cons ⟨rfl, .string (writeString_spelled a.predicate)⟩
    (.cons ⟨rfl, writeArray_map_spelled Term.write_spelled a.terms⟩ .nil))

theorem collects (a : Atom) : Collects member {}
    [("predicate", .string a.predicate), ("terms", .array (a.terms.map Term.json))]
    (some ⟨some a.predicate, some a.terms⟩) :=
  .cons ((reads_string a.predicate).newMember _)
    (.cons ((reads_array_map Term.reads a.terms).newMember _) (.nil _))

theorem reads (a : Atom) : Reads decoder a.json a :=
  Reads.bind a.collects.record rfl

end Atom

namespace Rule

/-- The value that a rule stands for. -/
def json (r : Rule) : Json :=
  .object [("head", r.head.json), ("body", .array (r.body.map Atom.json))]

theorem write_spelled (r : Rule) : Spells (.value r.json) r.write :=
  writeObject_spelled (.cons ⟨rfl, r.head.write_spelled⟩
    (.cons ⟨rfl, writeArray_map_spelled Atom.write_spelled r.body⟩ .nil))

theorem collects (r : Rule) : Collects member {}
    [("head", r.head.json), ("body", .array (r.body.map Atom.json))]
    (some ⟨some r.head, some r.body⟩) :=
  .cons (r.head.reads.newMember _)
    (.cons ((reads_array_map Atom.reads r.body).newMember _) (.nil _))

theorem reads (r : Rule) : Reads decoder r.json r :=
  Reads.bind r.collects.record rfl

end Rule

namespace Clause

/-- The value that a clause stands for. -/
def json : Clause → Json
  | fact a => .object [("Fact", a.json)]
  | rule r => .object [("Rule", r.json)]

theorem write_spelled (c : Clause) : Spells (.value c.json) c.write := by
  cases c with
  | fact a => exact writeObject_spelled (.cons ⟨rfl, a.write_spelled⟩ .nil)
  | rule r => exact writeObject_spelled (.cons ⟨rfl, r.write_spelled⟩ .nil)

theorem reads (c : Clause) : Reads decoder c.json c := by
  cases c with
  | fact a => exact .variant rfl (a.reads.map fact)
  | rule r => exact .variant rfl (r.reads.map rule)

end Clause

namespace Settings

/-- The members of the object that settings stand for. -/
def members (s : Settings) : List (String × Json) :=
  [("strategy", .string s.strategy.name), ("max_rounds", .optional .count s.maxRounds),
    ("track_provenance", .boolean s.trackProvenance),
    ("collect_timings", .boolean s.collectTimings)]

theorem write_spelled (s : Settings) : Spells (.value (.object s.members)) s.write :=
  writeObject_spelled (.cons ⟨rfl, .string (writeString_spelled s.strategy.name)⟩
    (.cons ⟨rfl, writeOptional_spelled writeCount_spelled s.maxRounds⟩
      (.cons ⟨rfl, writeBoolean_spelled s.trackProvenance⟩
        (.cons ⟨rfl, writeBoolean_spelled s.collectTimings⟩ .nil))))

theorem ofName?_name (s : Strategy) : Strategy.ofName? s.name = some s := by
  cases s <;> rfl

theorem natural?_count {n : Nat} (h : n < 2 ^ 64) : Json.natural? (.count n) = some n := by
  show (if digitsValue (writeCount n) < 2 ^ 64 then some (digitsValue (writeCount n)) else none) = _
  rw [digitsValue_writeCount, if_pos h]

theorem orNull_optional_count {n? : Option Nat} (h : ∀ n, n? = some n → n < 2 ^ 64) :
    Json.orNull Json.natural? (.optional .count n?) = some n? := by
  cases n? with
  | none => rfl
  | some n => exact congrArg (Option.map some) (natural?_count (h n rfl))

theorem ofMembers?_members {s : Settings} (h : ∀ n, s.maxRounds = some n → n < 2 ^ 64) :
    ofMembers? s.members = some s := by
  have hfields : fields? s.members = some ⟨some s.strategy, some s.maxRounds,
      some s.trackProvenance, some s.collectTimings⟩ := by
    refine fields?_eq_some.mpr ⟨?_, ?_, rfl, rfl⟩
    · exact congrArg (Option.map some) (ofName?_name s.strategy)
    · exact congrArg (Option.map some) (orNull_optional_count h)
  unfold ofMembers?
  rw [hfields]
  rfl

theorem reads {s : Settings} (h : ∀ n, s.maxRounds = some n → n < 2 ^ 64) :
    Reads decoder (.object s.members) s := by
  have hgives := gives_object s.members
  rwa [ofMembers?_members h] at hgives

end Settings

/-- From a written text, what it has been written for is read. -/
theorem decode_ofList {α : Type} {d : Decoder α} {v : Json} {a : α} {cs : List Char}
    (hread : Reads d v a) (hwrite : Spells (.value v) cs) :
    decode d (String.ofList cs) = .ok a := by
  refine hread.decode ?_
  rw [String.toList_ofList]
  exact hwrite.text

/-- **Writing and reading**: from the text that a term, an atom, a rule or a clause is written as,
the same is read, whatever the names are; and so are settings with a limit of 64 bits, of which only
a limit of zero rounds is refused. -/
theorem decode_write :
    (∀ t : Term, decode Term.decoder (String.ofList t.write) = .ok t) ∧
      (∀ a : Atom, decode Atom.decoder (String.ofList a.write) = .ok a) ∧
      (∀ r : Rule, decode Rule.decoder (String.ofList r.write) = .ok r) ∧
      (∀ c : Clause, decode Clause.decoder (String.ofList c.write) = .ok c) ∧
      ∀ s : Settings, (∀ n, s.maxRounds = some n → n < 2 ^ 64) →
        Settings.ofJson (String.ofList s.write) =
          if s.maxRounds = some 0 then .error (.invalid .zeroRoundLimit) else .ok s := by
  refine ⟨fun t => ?_, fun a => ?_, fun r => ?_, fun c => ?_, fun s hs => ?_⟩
  · exact decode_ofList t.reads t.write_spelled
  · exact decode_ofList a.reads a.write_spelled
  · exact decode_ofList r.reads r.write_spelled
  · exact decode_ofList c.reads c.write_spelled
  · exact Settings.ofJson_of_decode (decode_ofList (Settings.reads hs) s.write_spelled)

theorem ofJson_write_greatestLimit :
    Settings.ofJson (String.ofList (Settings.write { maxRounds := some (2 ^ 64 - 1) })) =
      .ok { maxRounds := some (2 ^ 64 - 1) } :=
  decode_write.2.2.2.2 { maxRounds := some (2 ^ 64 - 1) } (by
    rintro n h
    cases h
    decide)

end Datalog
