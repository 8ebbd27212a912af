import Expansion.Lexeme
import Expansion.Span

/-!
# What can be wrong with a text

An error is a cause together with the regions of the text that it is about. Its wording is made
here as well: a headline, one label for each region, and for most causes a hint.
-/

namespace Expansion

/-- The largest exponent of a name in a term. -/
def maxExponent : Nat := 1000

/-- A defect of a text. -/
inductive Error
  /-- The opening parenthesis at `place` has no partner. -/
  | unclosed (place : Span)
  /-- The closing parenthesis at `place` has no partner. -/
  | unopened (place : Span)
  /-- The pair of parentheses at `place` has nothing but blanks inside. -/
  | emptyParenthesis (place : Span)
  /-- The pair of parentheses at `place` stands more than `limit` levels deep. -/
  | nestingTooDeep (limit : Nat) (place : Span)
  /-- The token `found` cannot stand where it does in a monomial. -/
  | malformedTerm (found : String) (place : Span)
  /-- The operator at `place` lacks an operand. -/
  | missingOperand (op : Operator) (place : Span)
  /-- Two values stand side by side. -/
  | missingOperator (first second : Span)
  /-- The entry is not a name, an equals sign and an integer. -/
  | malformedBinding (entry : String) (place : Span)
  /-- Two entries bind the same name. -/
  | duplicateBinding (name : Char) (first second : Span)
  /-- The exponent written at `place`, or made by the `*` there, is above `maxExponent`. -/
  | exponentTooLarge (place : Span)
deriving DecidableEq

namespace Error

/-- The regions of the text that an error is about. -/
def spans : Error → List Span
  | unclosed s | unopened s | emptyParenthesis s | nestingTooDeep _ s | malformedTerm _ s
  | missingOperand _ s | malformedBinding _ s | exponentTooLarge s => [s]
  | missingOperator s t | duplicateBinding _ s t => [s, t]

/-- The error with its regions moved `n` bytes to the right, as in a text with `n` more bytes in
front. -/
def shift (n : Nat) : Error → Error
  | unclosed s => unclosed (s.shift n)
  | unopened s => unopened (s.shift n)
  | emptyParenthesis s => emptyParenthesis (s.shift n)
  | nestingTooDeep limit s => nestingTooDeep limit (s.shift n)
  | malformedTerm found s => malformedTerm found (s.shift n)
  | missingOperand op s => missingOperand op (s.shift n)
  | missingOperator s t => missingOperator (s.shift n) (t.shift n)
  | malformedBinding entry s => malformedBinding entry (s.shift n)
  | duplicateBinding name s t => duplicateBinding name (s.shift n) (t.shift n)
  | exponentTooLarge s => exponentTooLarge (s.shift n)

/-- The headline of an error. -/
def message : Error → String
  | unclosed _ | unopened _ => "unclosed parenthesis"
  | emptyParenthesis _ => "missing expression inside parenthesis"
  | nestingTooDeep _ _ => "parentheses are nested too deeply"
  | malformedTerm _ _ => "malformed term"
  | missingOperand op _ => "missing operand for `" ++ op.char.toString ++ "`"
  | missingOperator _ _ => "missing operator"
  | malformedBinding _ _ => "malformed binding"
  | duplicateBinding name _ _ => "`" ++ name.toString ++ "` is bound more than once"
  | exponentTooLarge _ => "exponent is too large"

/-- What is said about each region of an error, in the order of `spans`. -/
def labels : Error → List String
  | unclosed _ => ["this parenthesis is not closed"]
  | unopened _ => ["this parenthesis was never opened"]
  | emptyParenthesis _ => ["add an expression here"]
  | nestingTooDeep limit _ =>
    ["this group is nested more than " ++ toString limit ++ " levels deep"]
  | malformedTerm found _ => ["I could not understand `" ++ found ++ "` here"]
  | missingOperand _ _ => ["I expected to see a term next to this"]
  | missingOperator _ _ => ["this value", "is followed by this value"]
  | malformedBinding entry _ => ["I could not understand `" ++ entry ++ "` as a binding"]
  | duplicateBinding _ _ _ => ["first bound here", "bound again here"]
  | exponentTooLarge _ => ["this exponent is larger than " ++ toString maxExponent]

/-- How an error could be mended. -/
def help : Error → Option String
  | unclosed _ => some "add a closing parenthesis `)` somewhere after this"
  | unopened _ => some "add an opening parenthesis `(` somewhere before this"
  | emptyParenthesis _ => none
  | nestingTooDeep _ _ =>
    some "simplify the expression, or raise `max_depth` in the parse options"
  | malformedTerm _ _ =>
    some ("terms look like 4, -3a or 2a2b: " ++
      "a coefficient followed by single-letter variables")
  | missingOperand _ _ => none
  | missingOperator _ _ =>
    some "implicit multiplication is not supported; add a `*` between them"
  | malformedBinding _ _ =>
    some ("bindings are comma-separated pairs of a single-letter name and an integer, " ++
      "like a=5,b=-3")
  | duplicateBinding _ _ _ => some "remove one of the bindings"
  | exponentTooLarge _ => some ("exponents may be at most " ++ toString maxExponent)

/-- Every region has its label. -/
theorem length_labels (e : Error) : e.labels.length = e.spans.length := by
  cases e <;> rfl

@[simp] theorem spans_shift (n : Nat) (e : Error) :
    (e.shift n).spans = e.spans.map (Span.shift n) := by
  cases e <;> rfl

theorem shift_shift (m n : Nat) (e : Error) : (e.shift m).shift n = e.shift (m + n) := by
  cases e <;> simp only [shift, Span.shift_shift]

@[simp] theorem shift_zero (e : Error) : e.shift 0 = e := by
  cases e <;> rfl

end Error

end Expansion
