import Expansion.Monomial

/-!
# Terms

A *term* is an integer factor times a monomial. A term whose monomial is 1 is a *constant* term;
any other one is a *variable* term, also if its factor is zero.

Products are partial, because no exponent may pass `maxExponent`.
-/

namespace Expansion

/-- An integer factor times a monomial. -/
structure Term where
  factor : Int
  monomial : Monomial
deriving DecidableEq

namespace Term

/-- The constant term with the given value. -/
def constant (n : Int) : Term := ⟨n, .one⟩

/-- The constant term 0. -/
def zero : Term := constant 0

/-- The term with the given factor and powers, in which names may be repeated and exponents may be
zero. There is none if the exponents of a name add up to more than `maxExponent`. -/
def ofPowers? (factor : Int) (ps : List (Char × Nat)) : Option Term :=
  let m := Monomial.ofPowers ps
  if m.fits then some ⟨factor, m⟩ else none

/-- Whether the term has no names. -/
def isConstant (t : Term) : Bool := t.monomial.isOne

/-- Whether the term is zero. -/
def isZero (t : Term) : Bool := t.factor == 0

/-- The multiplier of the names of a variable term; a constant term has none, which counts as 0. -/
def coefficient (t : Term) : Int := if t.isConstant then 0 else t.factor

/-- The value of a constant term; a variable term has none, which counts as 0. -/
def constantValue (t : Term) : Int := if t.isConstant then t.factor else 0

/-- Whether two terms differ at most in their factors. -/
def sameNames (s t : Term) : Bool := s.monomial == t.monomial

/-- Every name occurs once, in order, with an exponent from 1 to `maxExponent`. -/
def Valid (t : Term) : Prop := t.monomial.Valid

instance : Neg Term := ⟨fun t => { t with factor := -t.factor }⟩

@[simp] theorem factor_neg (t : Term) : (-t).factor = -t.factor := rfl

@[simp] theorem monomial_neg (t : Term) : (-t).monomial = t.monomial := rfl

/-- The term, or the opposite term. -/
def withSign (negative : Bool) (t : Term) : Term := if negative then -t else t

/-- The sum of two terms that differ at most in their factors, as one term. Where the factors
cancel, it is the constant term 0. -/
def merge? (s t : Term) : Option Term :=
  if s.sameNames t then
    let sum := s.factor + t.factor
    some (if sum = 0 then zero else ⟨sum, s.monomial⟩)
  else none

/-- The product of two terms, if none of its exponents is above `maxExponent`. -/
def mul? (s t : Term) : Option Term :=
  let m := s.monomial.mul t.monomial
  if m.fits then some ⟨s.factor * t.factor, m⟩ else none

/-- What is written in front of the names of a term: nothing for 1, a sign for -1. -/
def coefficientChars (n : Int) : List Char :=
  if n = 1 then [] else if n = -1 then ['-'] else Numeral.chars n

/-- The text of a term. A variable term with factor 0 is written as 0. -/
def chars (t : Term) : List Char :=
  if t.isConstant then Numeral.chars t.factor
  else if t.factor = 0 then ['0']
  else coefficientChars t.factor ++ t.monomial.chars

/-- The text of a term. -/
def text (t : Term) : String := String.ofList t.chars

end Term

end Expansion
