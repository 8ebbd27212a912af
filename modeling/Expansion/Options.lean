/-!
# Options of the reader

How deep parentheses may be nested before an expression is refused.
-/

namespace Expansion

/-- The choices that a reader of expressions follows. -/
structure Options where
  /-- The deepest level that a pair of parentheses may stand at; the text itself is level 0. -/
  maxDepth : Nat
deriving DecidableEq

/-- The options in use where nothing else is asked for. -/
def Options.default : Options := ⟨256⟩

end Expansion
