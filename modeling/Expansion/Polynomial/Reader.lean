import Expansion.Item
import Expansion.Polynomial
import Expansion.Term.Reader

/-!
# Reading a sum

A text without parentheses is a sequence of terms with operators between them. It is read from left
to right into one term for each summand, where factors joined by `*` are multiplied and signs are
applied to the term after them. Nothing is sorted or merged.

A plus or minus at the start, or after another operator, is a sign of the next term.
-/

namespace Expansion

namespace Summands

/-- What stands before a term that is still to come. -/
inductive Gap
  /-- Nothing, or signs, the last of which is given. -/
  | start (sign : Option (Operator × Span))
  /-- The operator that separates the term from the summand before it. -/
  | sum (op : Operator) (place : Span)
  /-- A `*` after `left`. -/
  | product (left : Term) (place : Span)

/-- How far a text is read. The finished summands are listed from the last to the first. -/
inductive State
  /-- The next item is an operand, or a sign of it. -/
  | before (done : List Term) (gap : Gap) (negative : Bool)
  /-- The last item was an operand, and `last` is the summand that it ends. -/
  | after (done : List Term) (last : Term)

/-- Nothing is read yet. -/
def State.start : State := .before [] (.start none) false

/-- The state after a term was read. -/
def State.addTerm (t : Term) : State → Except Error State
  | .before done (.product left place) negative => match left.mul? (t.withSign negative) with
    | some product => .ok (.after done product)
    | none => .error (.exponentTooLarge place)
  | .before done _ negative => .ok (.after done (t.withSign negative))
  | .after done last => .ok (.after (last :: done) t)

/-- The gap with one more sign after it. -/
def Gap.addSign (op : Operator) (place : Span) : Gap → Gap
  | start _ => start (some (op, place))
  | gap => gap

/-- The state after an operator was read. -/
def State.addOperator (op : Operator) (place : Span) : State → Except Error State
  | .after done last => match op with
    | .mul => .ok (.before done (.product last place) false)
    | _ => .ok (.before (last :: done) (.sum op place) (op == .sub))
  | .before done gap negative => match op with
    | .mul => .error (.missingOperand .mul place)
    | _ => .ok (.before done (gap.addSign op place) (negative != (op == .sub)))

/-- The state after an item was read. -/
def State.add (s : State) : Item (Operand Empty) → Except Error State
  | .operator op place => s.addOperator op place
  | .operand (.run r) => do
    let t ← Term.ofTokens r.tokens
    s.addTerm t

/-- The summands, if no operator waits for its operand. A text without terms is 0. -/
def State.finish : State → Except Error (List Term)
  | .after done last => .ok (last :: done).reverse
  | .before _ (.sum op place) _ => .error (.missingOperand op place)
  | .before _ (.product _ place) _ => .error (.missingOperand .mul place)
  | .before _ (.start (some (op, place))) _ => .error (.missingOperand op place)
  | .before _ (.start none) _ => .ok [.zero]

/-- The summands that a sequence of items is written for. -/
def read (items : List (Item (Operand Empty))) : Except Error Polynomial := do
  let s ← items.foldlM State.add State.start
  let ts ← s.finish
  .ok ⟨ts⟩

end Summands

/-- Reads a text without parentheses into one term for each summand. -/
def Polynomial.parse (text : String) : Except Error Polynomial :=
  Summands.read (Item.ofTokens (tokenize text))

end Expansion
