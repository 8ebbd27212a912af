import Expansion.Item
import Expansion.Polynomial
import Expansion.Term.Reader

/-!
# Operations between values

A sequence of items whose operands are values is worked out in three passes. The first applies
every sign to the value after it, the second multiplies the values on the two sides of each `*`,
and the third adds and subtracts from left to right. Each pass refuses what it cannot use.
-/

namespace Expansion

/-- A polynomial together with the region of the text that it comes from. -/
structure Value where
  polynomial : Polynomial
  place : Span
deriving DecidableEq

/-- Signs that stand before a value: the first of them with its region, and whether together they
make the value negative. -/
structure Signs where
  first : Operator
  place : Span
  negative : Bool

/-- The signs with one more after them, where there may have been none before. -/
def Signs.add (op : Operator) (place : Span) : Option Signs → Signs
  | none => ⟨op, place, op == .sub⟩
  | some s => { s with negative := s.negative != (op == .sub) }

namespace Value

/-- The value of a run of tokens, which must be a single term. -/
def ofRun (r : Run) : Except Error Value := do
  let t ← Term.ofTokens r.tokens
  .ok ⟨.ofTerm t, r.place⟩

/-- The value of an operand. -/
def ofOperand : Operand Value → Except Error Value
  | .run r => ofRun r
  | .value v => .ok v

/-- The value with the signs before it. -/
def withSigns (signs : Option Signs) (v : Value) : Value :=
  match signs with
  | none => v
  | some s => ⟨v.polynomial.withSign s.negative, s.place.through v.place⟩

/-- The product of two values around the `*` at `place`. -/
def mul (place : Span) (v w : Value) : Except Error Value :=
  match v.polynomial.mul? w.polynomial with
  | some p => .ok ⟨p, v.place.through w.place⟩
  | none => .error (.exponentTooLarge place)

end Value

namespace Operations

/-- The first pass: the items with every sign applied to the value after it. A plus or minus is a
sign where an operand may stand, which `operandNext` says; `signs` are those just before. -/
def sign (operandNext : Bool) (signs : Option Signs) :
    List (Item Value) → Except Error (List (Item Value))
  | [] => match signs with
    | none => .ok []
    | some s => .error (.missingOperand s.first s.place)
  | .operand v :: rest => do
    let rest ← sign false none rest
    .ok (.operand (v.withSigns signs) :: rest)
  | .operator op place :: rest =>
    if operandNext && op != .mul then sign true (some (Signs.add op place signs)) rest
    else match signs with
      | none => do
        let rest ← sign true none rest
        .ok (.operator op place :: rest)
      | some s => .error (.missingOperand s.first s.place)

/-- The second pass: the items with the values around every `*` multiplied. The value just before
the items, if any, is `last`. -/
def multiply (last : Option Value) : List (Item Value) → Except Error (List (Item Value))
  | [] => .ok (last.toList.map .operand)
  | .operand v :: rest => do
    let rest ← multiply (some v) rest
    .ok (last.toList.map .operand ++ rest)
  | .operator .mul place :: .operand w :: rest => match last with
    | some v => do
      let product ← v.mul place w
      multiply (some product) rest
    | none => .error (.missingOperand .mul place)
  | .operator .mul place :: _ => .error (.missingOperand .mul place)
  | .operator op place :: rest => do
    let rest ← multiply none rest
    .ok (last.toList.map .operand ++ .operator op place :: rest)

/-- The third pass after its first value: `sum` plus and minus the values in the items. The value
just before the items is at `last`. -/
def addUpFrom (sum : Polynomial) (last : Span) : List (Item Value) → Except Error Polynomial
  | [] => .ok sum
  | .operand v :: _ => .error (.missingOperator last v.place)
  | .operator .add _ :: .operand v :: rest => addUpFrom (sum + v.polynomial) v.place rest
  | .operator .sub _ :: .operand v :: rest => addUpFrom (sum - v.polynomial) v.place rest
  | .operator op place :: _ => .error (.missingOperand op place)

/-- The third pass: the sum of the values in the items. -/
def addUp : List (Item Value) → Except Error Polynomial
  | [] => .ok .zero
  | .operand v :: rest => addUpFrom v.polynomial v.place rest
  | .operator op place :: _ => .error (.missingOperand op place)

/-- The polynomial that a sequence of items is written for. -/
def combine (items : List (Item (Operand Value))) : Except Error Polynomial := do
  let values ← items.mapM (·.mapM Value.ofOperand)
  let signed ← sign true none values
  let multiplied ← multiply none signed
  addUp multiplied

end Operations

end Expansion
