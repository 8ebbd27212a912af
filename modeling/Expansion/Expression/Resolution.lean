import Expansion.Expression.Operations
import Expansion.Logged
import Expansion.Polynomial.Reader

/-!
# Resolving an outline

An outline is resolved from the inside out: every group is replaced by its value, in the order of
the closing parentheses, and the sequence of items that is left is worked out. A sequence without
groups is read as a sum of terms; one with groups goes through the passes of `Operations`.
-/

namespace Expansion

namespace Outline

/-- The value of a sequence of items in which groups are replaced by their values. -/
def valueOf (items : List (Item (Operand Value))) : Except Error Polynomial :=
  match Item.runs? items with
  | some runs => do
    let p ← Summands.read runs
    .ok p.reduced
  | none => Operations.combine items

/-- The items of an outline, with every group replaced by its value. -/
def items : Outline → Logged (List (Item (Operand Value)))
  | nil => pure []
  | token t rest => do
    let after ← rest.items
    pure (Item.push t after)
  | group opening body closing rest => do
    let inner ← body.items
    let p ← Logged.ofExcept (valueOf inner)
    Logged.write (.resolvedNode body p)
    let after ← rest.items
    pure (.operand (.value ⟨p, opening.span.through closing.span⟩) :: after)

/-- The value of an outline. -/
def resolve (o : Outline) : Logged Polynomial := do
  let items ← o.items
  let p ← Logged.ofExcept (valueOf items)
  Logged.write (.resolvedNode o p)
  pure p

end Outline

end Expansion
