import Expansion.Expression
import Expansion.Text.Parts

/-!
# Requests

A *request* is a line with an expression, followed by any number of bindings with a `;` in front of
each. Without bindings it is answered by the canonical text of the expression, and otherwise by one
line for each of the bindings, the expression evaluated with them. The first error is the answer to
the whole request, and its regions are regions of the line.
-/

namespace Expansion.Request

/-- One line for each of the bindings, the first of which start at the byte `offset`. -/
def evaluateAll (e : Expression) (offset : Nat) : List (List Char) → Logged (List String)
  | [] => pure []
  | part :: rest => do
    let b ← Logged.ofExcept
      ((Bindings.parse (String.ofList part)).mapError (Error.shift offset))
    let p ← e.evaluateWith b
    let lines ← evaluateAll e (offset + byteLength part + 1) rest
    pure (p.text :: lines)

/-- The lines that answer a request. -/
def run (options : Options) (line : String) : Logged (List String) :=
  match Text.parts ';' line.toList with
  | [] => pure []
  | source :: bindings => do
    let e ← Expression.parse options (String.ofList source)
    match bindings with
    | [] => pure [e.text]
    | _ => evaluateAll e (byteLength source + 1) bindings

end Expansion.Request
