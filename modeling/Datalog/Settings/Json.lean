import Datalog.JsonText.Decoder
import Datalog.JsonText.Writer
import Datalog.Settings

/-!
# Settings as JSON texts

Settings are a record with the fields `strategy`, `max_rounds`, `track_provenance` and
`collect_timings`.  A field that is not given has its default value.  A text of the right shape may
still ask for something that can never work; that is found out after the whole text has been read.
-/

namespace Datalog

open JsonText

namespace Strategy

/-- The name of a strategy. -/
def name : Strategy → String
  | semiNaive => "semi_naive"
  | naive => "naive"

/-- The strategy of a name. -/
def ofName? : String → Option Strategy
  | "semi_naive" => some semiNaive
  | "naive" => some naive
  | _ => none

/-- Read a strategy. -/
def decoder : Decoder Strategy := plainVariant ofName?

end Strategy

/-- Why a text gives no settings. -/
inductive SettingsError where
  /-- The text cannot be read as settings. -/
  | unreadable (e : JsonText.Fault)
  /-- The settings are refused. -/
  | invalid (e : InvalidSettings)
  deriving DecidableEq, Repr

namespace Settings

/-- Settings as a JSON text. -/
def write (s : Settings) : List Char :=
  writeObject [("strategy", writeString s.strategy.name),
    ("max_rounds", writeOptional writeCount s.maxRounds),
    ("track_provenance", writeBoolean s.trackProvenance),
    ("collect_timings", writeBoolean s.collectTimings)]

/-- The fields of settings met so far. -/
structure Fields where
  /-- The value of `strategy`, once it has been met. -/
  strategy : Option Strategy := none
  /-- The value of `max_rounds`, once it has been met; `null` stands for no limit. -/
  maxRounds : Option (Option Nat) := none
  /-- The value of `track_provenance`, once it has been met. -/
  trackProvenance : Option Bool := none
  /-- The value of `collect_timings`, once it has been met. -/
  collectTimings : Option Bool := none

/-- The settings that some fields stand for, the others having their defaults. -/
def ofFields (f : Fields) : Settings :=
  let d : Settings := {}
  ⟨f.strategy.getD d.strategy, f.maxRounds.getD d.maxRounds,
    f.trackProvenance.getD d.trackProvenance, f.collectTimings.getD d.collectTimings⟩

/-- A member of settings. -/
def member (f : Fields) (name : String) : Decoder Fields :=
  match name with
  | "strategy" => newMember f.strategy Strategy.decoder fun v => { f with strategy := some v }
  | "max_rounds" =>
    newMember f.maxRounds (optional count) fun v => { f with maxRounds := some v }
  | "track_provenance" =>
    newMember f.trackProvenance boolean fun v => { f with trackProvenance := some v }
  | "collect_timings" =>
    newMember f.collectTimings boolean fun v => { f with collectTimings := some v }
  | _ => otherMember f

/-- An element of an array, if there is a further one. -/
def furtherElement {α : Type} (first : Bool) (element : Decoder α) : Decoder (Option α) := do
  if ← nextElement first then some <$> element else pure none

/-- The fields of settings as elements of an array, which may end early. -/
def fieldsInOrder : Decoder Fields := do
  let strategy ← furtherElement true Strategy.decoder
  if strategy.isNone then return {}
  let maxRounds ← furtherElement false (optional count)
  if maxRounds.isNone then return { strategy := strategy }
  let trackProvenance ← furtherElement false boolean
  if trackProvenance.isNone then return { strategy := strategy, maxRounds := maxRounds }
  let collectTimings ← furtherElement false boolean
  pure ⟨strategy, maxRounds, trackProvenance, collectTimings⟩

/-- Read settings. -/
def decoder : Decoder Settings := ofFields <$> record member {} fieldsInOrder

/-- The settings that a text asks for, if they can work. -/
def ofJson (text : String) : Except SettingsError Settings :=
  match decode decoder text with
  | .error e => .error (.unreadable e)
  | .ok s =>
    match s.validate with
    | .error e => .error (.invalid e)
    | .ok () => .ok s

end Settings

end Datalog
