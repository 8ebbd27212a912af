import Expansion.Expression

/-!
# Registers

A session keeps the results of its steps in numbered registers, so that later steps can use them. A
register holds a term, a polynomial, an expression or bindings, or nothing that can be used.
-/

namespace Expansion.Session

/-- What a register can hold. -/
inductive Content
  | term (t : Term)
  | polynomial (p : Polynomial)
  | expression (e : Expression)
  | bindings (b : Bindings)

/-- A use of a register that does not fit what it holds. -/
inductive Misuse
  | noRegister
  | notTerm
  | notPolynomial
  | notExpression
  | notBindings
  | noTerm
deriving DecidableEq

/-- What is said about a misuse. -/
def Misuse.message : Misuse → String
  | noRegister => "no such register"
  | notTerm => "not a term"
  | notPolynomial => "not a polynomial"
  | notExpression => "not an expression"
  | notBindings => "not bindings"
  | noTerm => "no such term"

/-- Why a step has no result. -/
inductive Failure
  | misuse (m : Misuse)
  /-- A text that the step reads is wrong. -/
  | error (e : Error)
  /-- A product that must exist has an exponent above `maxExponent`. -/
  | overflow

/-- What is said about an exponent that is too large in a product that must exist. -/
def overflowMessage : String := "exponent exceeds the maximum of " ++ toString maxExponent

/-- The registers, numbered from 0. -/
abbrev Registers := List (Option Content)

namespace Registers

/-- What the register holds. -/
def content (rs : Registers) (i : Nat) : Except Failure (Option Content) :=
  match rs[i]? with
  | some r => .ok r
  | none => .error (.misuse .noRegister)

/-- The term in the register. -/
def term (rs : Registers) (i : Nat) : Except Failure Term := do
  match ← rs.content i with
  | some (.term t) => .ok t
  | _ => .error (.misuse .notTerm)

/-- The polynomial in the register. -/
def polynomial (rs : Registers) (i : Nat) : Except Failure Polynomial := do
  match ← rs.content i with
  | some (.polynomial p) => .ok p
  | _ => .error (.misuse .notPolynomial)

/-- The expression in the register. -/
def expression (rs : Registers) (i : Nat) : Except Failure Expression := do
  match ← rs.content i with
  | some (.expression e) => .ok e
  | _ => .error (.misuse .notExpression)

/-- The bindings in the register. -/
def bindings (rs : Registers) (i : Nat) : Except Failure Bindings := do
  match ← rs.content i with
  | some (.bindings b) => .ok b
  | _ => .error (.misuse .notBindings)

end Registers

end Expansion.Session
