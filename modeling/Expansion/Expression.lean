import Expansion.Bindings.Reader
import Expansion.Expression.Resolution

/-!
# Expressions

An *expression* is a text that was read and resolved: what is left of it is a polynomial in
canonical form, which can be written as a text again and evaluated with bindings.
-/

namespace Expansion

/-- The polynomial that a text was resolved to. -/
structure Expression where
  polynomial : Polynomial
deriving DecidableEq

namespace Expression

/-- Reads and resolves a text. -/
def parse (options : Options) (text : String) : Logged Expression := do
  let o ← Logged.ofExcept (Outline.parse options text)
  let p ← o.resolve
  Logged.write (.resolved text o.nodeCount p)
  pure ⟨p⟩

/-- The expression of a polynomial, which need not be in canonical form. -/
def ofPolynomial (p : Polynomial) : Expression := ⟨p.reduced⟩

/-- The canonical text of an expression. -/
def text (e : Expression) : String := e.polynomial.text

/-- The expression with the values of the bound names put in. Other names stay. -/
def evaluateWith (b : Bindings) (e : Expression) : Logged Polynomial := do
  let p := e.polynomial.evaluate b
  Logged.write (.evaluated e.polynomial b.size p)
  pure p

/-- Reads bindings and evaluates the expression with them. -/
def evaluate (bindings : String) (e : Expression) : Logged Polynomial := do
  let b ← Logged.ofExcept (Bindings.parse bindings)
  e.evaluateWith b

end Expression

end Expansion
