import Expansion.Request
import Expansion.Text.Blank

/-!
# The command line

A run of the program reads a source and answers each of its lines that is not blank as a request.
Two settings are taken from the environment: `POLY_LOG` names the least important level of records
to show, and `POLY_MAX_DEPTH` the nesting limit. A setting that cannot be used is reported in the
log, and the usual value stands in for it.

What a run shows is a list of events, in order; the program prints them.
-/

namespace Expansion.CommandLine

/-- The settings of a run, as they are written in the environment. -/
structure Environment where
  log : Option String
  maxDepth : Option String

/-- What a run shows. -/
inductive Event
  /-- A line that answers a request. -/
  | answer (line : String)
  /-- The error that answers the request `line`. -/
  | failure (line : String) (e : Error)
  /-- A record of the log. -/
  | record (r : Record)
  /-- The source could not be read, or is not a text. -/
  | unreadable

/-- What a run shows, and whether it succeeded. -/
structure Report where
  events : List Event
  succeeded : Bool

/-! ## Settings -/

/-- The least important level to show. With none, nothing is shown. -/
abbrev Threshold := Option Level

/-- Whether records of a level are shown. -/
def isShown (threshold : Threshold) (level : Level) : Bool :=
  match threshold with
  | none => false
  | some least => level.detail ≤ least.detail

/-- The threshold that a setting names, in letters of either case. -/
def threshold? (setting : String) : Option Threshold :=
  let name := String.ofList (setting.toList.map Char.toUpper)
  if name = "OFF" then some none
  else (Level.all.find? (·.name == name)).map some

/-- The text without a plus sign in front. -/
def dropPlus : List Char → List Char
  | '+' :: rest => rest
  | cs => cs

/-- The nesting limit that a setting is written for: a number below 2 ^ 64, which may have a plus
sign in front and white space around it. -/
def maxDepth? (setting : String) : Option Nat :=
  let ds := dropPlus (Text.trim setting.toList)
  let limit := Numeral.value ds
  if !ds.isEmpty && ds.all Char.isDigit && limit < Nat.pow 2 64 then some limit else none

/-- The threshold of a run, and what is to be said about its setting. -/
def threshold (env : Environment) : Threshold × List Record :=
  match env.log with
  | none => (some .warn, [])
  | some setting => match threshold? setting with
    | some t => (t, [])
    | none => (some .warn, [.unknownLevel setting])

/-- The options of a run, and what is to be said about their setting. -/
def options (env : Environment) : Options × List Record :=
  match env.maxDepth with
  | none => (.default, [])
  | some setting => match maxDepth? setting with
    | some limit => (⟨limit⟩, [])
    | none => (.default, [.invalidDepth setting])

/-! ## Running a source -/

/-- The events of a line: the records of its request, then the answer. -/
def runLine (options : Options) (line : String) : List Event :=
  if Text.isBlank line.toList then []
  else
    let answer := Request.run options line
    let shown := match answer.outcome with
      | .ok lines => lines.map .answer
      | .error e => [.failure line e]
    (Record.request line :: answer.log).map .record ++ shown

/-- Whether an event is shown. -/
def Event.isShown (threshold : Threshold) : Event → Bool
  | .record r => CommandLine.isShown threshold r.level
  | _ => true

/-- A run of the program. The source is missing if it could not be read. -/
def run (env : Environment) (source : Option ByteArray) : Report :=
  let (threshold, levelRecords) := threshold env
  let (options, depthRecords) := options env
  let warnings := (levelRecords ++ depthRecords).map Event.record
  match source.bind String.fromUTF8? with
  | none => ⟨(warnings ++ [Event.unreadable]).filter (·.isShown threshold), false⟩
  | some text =>
    let events := (Text.lines text.toList).flatMap fun line => runLine options (String.ofList line)
    ⟨(warnings ++ events).filter (·.isShown threshold), true⟩

end Expansion.CommandLine
