import Expansion.Term
import Expansion.Token

/-!
# Reading a term

A term is written as an optional minus sign, an optional coefficient, and names, each followed by
an optional exponent: `4`, `-a`, `2a3b`. After the sign its tokens must touch each other. A sign
alone is -1, and nothing at all is 0.
-/

namespace Expansion

namespace Term

/-- The two sides of the first place where neighbours do not touch. The tokens before the given
ones reach back to `start`. -/
def gap? (start : Nat) : List Token → Option (Span × Span)
  | t :: u :: rest =>
    if t.stop = u.start then gap? start (u :: rest)
    else some (⟨start, t.stop⟩, Token.cover u rest)
  | _ => none

/-- Refuses tokens that do not touch each other. -/
def checkTouching : List Token → Except Error Unit
  | [] => .ok ()
  | t :: ts => match gap? t.start (t :: ts) with
    | some (before, after) => .error (.missingOperator before after)
    | none => .ok ()

/-- `m` times `x` to the power `e`, where the exponent is written at `place`. -/
def raiseAt (m : Monomial) (x : Char) (e : Nat) (place : Span) : Except Error Monomial :=
  if m.exponent x + e ≤ maxExponent then .ok (m.mulPower x e)
  else .error (.exponentTooLarge place)

/-- `m` times the powers that the tokens are written for. -/
def readPowers (m : Monomial) : List Token → Except Error Monomial
  | [] => .ok m
  | ⟨.letter x, _⟩ :: ⟨.digits ds, j⟩ :: rest => do
    let m ← raiseAt m x (Numeral.value ds) (Token.span ⟨.digits ds, j⟩)
    readPowers m rest
  | ⟨.letter x, i⟩ :: rest => do
    let m ← raiseAt m x 1 (Token.span ⟨.letter x, i⟩)
    readPowers m rest
  | t :: _ => .error (.malformedTerm t.text t.span)

/-- The term that tokens after an optional sign are written for. -/
def readUnsigned (negative : Bool) (ts : List Token) : Except Error Term := do
  checkTouching ts
  match ts with
  | [] => .ok (if negative then constant (-1) else zero)
  | ⟨.digits ds, _⟩ :: rest =>
    let m ← readPowers .one rest
    .ok ⟨Numeral.signed negative (Numeral.value ds), m⟩
  | ts =>
    let m ← readPowers .one ts
    .ok ⟨Numeral.signed negative 1, m⟩

/-- The term that tokens without blanks are written for. -/
def ofTokens : List Token → Except Error Term
  | ⟨.operator .sub, _⟩ :: rest => readUnsigned true rest
  | ts => readUnsigned false ts

/-- Reads a term. Blanks are allowed around the term and its sign. -/
def parse (text : String) : Except Error Term := ofTokens (significantTokens text)

end Term

end Expansion
