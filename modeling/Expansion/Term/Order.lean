import Expansion.Term

/-!
# The order of terms

Terms are ordered by their *rank*: a variable term ranks above every constant term; two variable
terms compare by the weight of their monomials and then by their factors; two constant terms
compare by their values.

The *weight* of a monomial is built up from 17, in the order of the names and once for each unit
of an exponent: what there is times 31, plus the name's share, which is 128 less its code point.
A whole power is added at once, because `e` units with the share `s` turn the weight `h` into
`h * 31 ^ e + s * (31 ^ e - 1) / 30`.
-/

namespace Expansion

namespace Monomial

/-- What each unit of exponent of a name adds to a weight. -/
def share (x : Char) : Int := 128 - (x.toNat : Int)

/-- A weight after one more power. -/
def addPower (weight : Int) : Char × Nat → Int
  | (x, e) => weight * (Nat.pow 31 e : Int) + (((Nat.pow 31 e - 1) / 30 : Nat) : Int) * share x

/-- The weight of a monomial. -/
def weight (m : Monomial) : Int := m.powers.foldl addPower 17

end Monomial

/-- What terms are compared by. -/
structure Rank where
  hasNames : Bool
  weight : Int
  factor : Int
deriving DecidableEq

/-- Ranks compare by their first difference. -/
def Rank.compare (r s : Rank) : Ordering :=
  (Ord.compare r.hasNames s.hasNames).then
    ((Ord.compare r.weight s.weight).then (Ord.compare r.factor s.factor))

namespace Term

/-- The weight of a variable term. -/
def weight? (t : Term) : Option Int := if t.isConstant then none else some t.monomial.weight

/-- The rank of a term. All constant terms have the same weight in it. -/
def rank (t : Term) : Rank := ⟨!t.isConstant, t.weight?.getD 0, t.factor⟩

/-- The order of two terms. -/
def compare (s t : Term) : Ordering := s.rank.compare t.rank

/-- The terms from the highest rank to the lowest; terms of equal rank keep their order. -/
def descending (ts : List Term) : List Term :=
  let ranked := ts.map fun t => (t.rank, t)
  (ranked.mergeSort fun a b => (b.1.compare a.1).isLE).map (·.2)

end Term

end Expansion
