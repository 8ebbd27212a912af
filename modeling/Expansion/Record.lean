import Expansion.Outline.Node
import Expansion.Polynomial

/-!
# Records of the log

The calculator keeps a log of what it does. A *record* says one thing that was done, and has a
level of detail and a wording.
-/

namespace Expansion

/-- How important a record is, from the most important level on. -/
inductive Level
  | error
  | warn
  | info
  | debug
  | trace
deriving DecidableEq

namespace Level

/-- The place of a level in the order of detail. -/
def detail : Level → Nat
  | error => 1
  | warn => 2
  | info => 3
  | debug => 4
  | trace => 5

/-- The name of a level in a log. -/
def name : Level → String
  | error => "ERROR"
  | warn => "WARN"
  | info => "INFO"
  | debug => "DEBUG"
  | trace => "TRACE"

/-- All levels, from the most important on. -/
def all : List Level := [error, warn, info, debug, trace]

end Level

/-- Something that was done. -/
inductive Record
  /-- A group, or the whole text, was resolved. -/
  | resolvedNode (body : Outline) (value : Polynomial)
  /-- A whole text was resolved. -/
  | resolved (text : String) (nodes : Nat) (value : Polynomial)
  /-- An expression was evaluated with some bindings. -/
  | evaluated (polynomial : Polynomial) (bindings : Nat) (value : Polynomial)
  /-- A line is about to be run. -/
  | request (line : String)
  /-- The setting of the log names no level. -/
  | unknownLevel (setting : String)
  /-- The setting of the nesting limit is not a number. -/
  | invalidDepth (setting : String)

namespace Record

/-- The level of a record. -/
def level : Record → Level
  | resolvedNode _ _ => .trace
  | resolved _ _ _ => .debug
  | evaluated _ _ _ => .debug
  | request _ => .debug
  | unknownLevel _ => .warn
  | invalidDepth _ => .warn

/-- The wording of a record. -/
def text : Record → String
  | resolvedNode body value => "resolved `" ++ body.text ++ "` to `" ++ value.text ++ "`"
  | resolved text nodes value =>
    "resolved `" ++ text ++ "` (" ++ toString nodes ++ " nodes) to `" ++ value.text ++ "`"
  | evaluated polynomial bindings value =>
    "evaluated `" ++ polynomial.text ++ "` with " ++ toString bindings ++ " binding(s) to `" ++
      value.text ++ "`"
  | request line => "request: " ++ line
  | unknownLevel setting => "unknown log level `" ++ setting ++ "` in POLY_LOG, using `warn`"
  | invalidDepth setting => "invalid POLY_MAX_DEPTH `" ++ setting ++ "`, using the default"

end Record

end Expansion
