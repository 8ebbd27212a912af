import Expansion.Bindings
import Expansion.Term

/-!
# Evaluating a term

Bindings replace names by values: every power of a bound name becomes part of the factor, and the
powers of the other names stay.
-/

namespace Expansion

namespace Monomial

/-- The product of the powers whose names are bound, as a number. -/
def boundFactor (b : Bindings) (m : Monomial) : Int :=
  m.powers.foldr (fun (x, e) n => ((b.get? x).map (Int.pow · e)).getD 1 * n) 1

/-- The product of the powers whose names are not bound. -/
def unbound (b : Bindings) (m : Monomial) : Monomial :=
  ⟨m.powers.filter fun (x, _) => (b.get? x).isNone⟩

end Monomial

/-- The term with the values of the bound names put in. -/
def Term.evaluate (b : Bindings) (t : Term) : Term :=
  ⟨t.factor * t.monomial.boundFactor b, t.monomial.unbound b⟩

end Expansion
