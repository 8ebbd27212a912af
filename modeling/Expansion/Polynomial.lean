import Expansion.Term.Evaluate
import Expansion.Term.Order

/-!
# Polynomials

A *polynomial* is a sum of terms, kept as the list of its terms. The list may be any; `reduce`
brings it into canonical form: sorted from the highest rank to the lowest, neighbours that differ
only in their factors merged, and zeros left out. The zero polynomial has the constant term 0.

The arithmetic takes any lists and gives canonical ones.
-/

namespace Expansion

/-- A sum of terms. -/
structure Polynomial where
  terms : List Term
deriving DecidableEq

namespace Polynomial

/-! ## Canonical form -/

/-- The terms `s :: ts` with neighbours merged. A merged term is compared with its new neighbour,
so that runs of any length become one term. -/
def mergeRun (s : Term) : List Term → List Term
  | [] => [s]
  | t :: ts => match s.merge? t with
    | some u => mergeRun u ts
    | none => s :: mergeRun t ts

/-- The terms with neighbours merged that differ at most in their factors. -/
def mergeNeighbours : List Term → List Term
  | [] => []
  | t :: ts => mergeRun t ts

/-- The sum of no terms is written with the constant term 0. -/
def ofNonzero : List Term → Polynomial
  | [] => ⟨[.zero]⟩
  | t :: ts => ⟨t :: ts⟩

/-- The sum of the terms in canonical form. -/
def reduce (ts : List Term) : Polynomial :=
  ofNonzero ((mergeNeighbours (Term.descending ts)).filter (!·.isZero))

/-- The polynomial in canonical form. -/
def reduced (p : Polynomial) : Polynomial := reduce p.terms

/-! ## Special polynomials -/

/-- The polynomial 0. -/
def zero : Polynomial := ⟨[.zero]⟩

/-- The polynomial that is a single term. -/
def ofTerm (t : Term) : Polynomial := reduce [t]

/-- The polynomial that is a single number. -/
def constant (n : Int) : Polynomial := ofTerm (.constant n)

/-- The value of a polynomial that is a single constant term. -/
def constant? (p : Polynomial) : Option Int :=
  match p.terms with
  | [t] => if t.isConstant then some t.factor else none
  | _ => none

/-- Whether the polynomial is a single constant term. -/
def isConstant (p : Polynomial) : Bool := p.constant?.isSome

/-- Whether all terms are zero. -/
def isZero (p : Polynomial) : Bool := p.terms.all Term.isZero

/-! ## Arithmetic -/

/-- The sum of two terms, not in canonical form: one term if they differ at most in their factors,
and else the two as they are. -/
def ofSum (s t : Term) : Polynomial :=
  match s.merge? t with
  | some u => ⟨[u]⟩
  | none => ⟨[s, t]⟩

instance : Neg Polynomial := ⟨fun p => reduce (p.terms.map (- ·))⟩

instance : Add Polynomial := ⟨fun p q => reduce (p.terms ++ q.terms)⟩

instance : Sub Polynomial := ⟨fun p q => reduce (p.terms ++ q.terms.map (- ·))⟩

theorem neg_def (p : Polynomial) : -p = reduce (p.terms.map (- ·)) := rfl

theorem add_def (p q : Polynomial) : p + q = reduce (p.terms ++ q.terms) := rfl

theorem sub_def (p q : Polynomial) : p - q = reduce (p.terms ++ q.terms.map (- ·)) := rfl

/-- The polynomial, or the opposite polynomial. -/
def withSign (negative : Bool) (p : Polynomial) : Polynomial := if negative then -p else p

/-- Every term of `p` with every term of `q`. -/
def pairs (p q : Polynomial) : List (Term × Term) :=
  p.terms.flatMap fun s => q.terms.map fun t => (s, t)

/-- The product of two polynomials, if all products of their terms exist. -/
def mul? (p q : Polynomial) : Option Polynomial :=
  ((pairs p q).mapM fun (s, t) => Term.mul? s t).map reduce

/-- The polynomial with the values of the bound names put in. -/
def evaluate (b : Bindings) (p : Polynomial) : Polynomial := reduce (p.terms.map (·.evaluate b))

/-! ## Text -/

/-- A term after another one: a term that is not negative has a plus sign in front. -/
def addendChars (t : Term) : List Char := if t.factor < 0 then t.chars else '+' :: t.chars

/-- The text of a polynomial: its terms, one after another. The sum of no terms is written 0. -/
def chars (p : Polynomial) : List Char :=
  match p.terms with
  | [] => ['0']
  | t :: ts => t.chars ++ ts.flatMap addendChars

/-- The text of a polynomial. -/
def text (p : Polynomial) : String := String.ofList p.chars

end Polynomial

end Expansion
