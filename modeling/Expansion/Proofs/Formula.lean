import Expansion.Proofs.Value
import Expansion.Token

/-!
# Formulas

A *formula* is what a text is read as: monomials, groups, signs, products, sums and differences. It
has an integer value under every assignment, for every name a *degree*, and a *depth*, which is how
far its groups are nested. It *fits* if no monomial and no product in it has a degree above
`maxExponent`.

The grammar (`Derives`) says how formulas are written with tokens other than blanks. A sum is a
sequence of products with `+` or `-` between them, which is read from left to right; a product is a
sequence of factors with `*` between them; and a factor is a monomial or a group with any number of
signs in front. The tokens of a monomial must touch each other.

A text is *well-formed* up to a depth if it is blank, or if it is written for a sum that is not
nested deeper (`WellFormed`). Its values are those of the sums that it is written for, and 0 if it
is blank (`Denotes`).
-/

namespace Expansion

/-- What a text is read as. -/
inductive Formula
  /-- A coefficient times powers of names, in which names may be repeated. -/
  | monomial (coefficient : Nat) (powers : List (Char × Nat))
  | group (body : Formula)
  | plus (body : Formula)
  | minus (body : Formula)
  | mul (left right : Formula)
  | add (left right : Formula)
  | sub (left right : Formula)

namespace Formula

/-- The value in integer arithmetic. -/
def value (ρ : Assignment) : Formula → Int
  | monomial c ps => c * Monomial.powersValue ρ ps
  | group f | plus f => f.value ρ
  | minus f => -f.value ρ
  | mul f g => f.value ρ * g.value ρ
  | add f g => f.value ρ + g.value ρ
  | sub f g => f.value ρ - g.value ρ

/-- The degree in `x`: exponents add up in a monomial, degrees in a product, and a sum has the
larger degree of its parts. -/
def degree (x : Char) : Formula → Nat
  | monomial _ ps => Monomial.total x ps
  | group f | plus f | minus f => f.degree x
  | mul f g => f.degree x + g.degree x
  | add f g | sub f g => max (f.degree x) (g.degree x)

/-- How deep groups are nested. -/
def depth : Formula → Nat
  | monomial _ _ => 0
  | group f => f.depth + 1
  | plus f | minus f => f.depth
  | mul f g | add f g | sub f g => max f.depth g.depth

/-- No monomial and no product has a degree above `maxExponent` in any name. -/
def Fits : Formula → Prop
  | monomial c ps => ∀ x, (monomial c ps).degree x ≤ maxExponent
  | group f | plus f | minus f => f.Fits
  | mul f g => f.Fits ∧ g.Fits ∧ ∀ x, (mul f g).degree x ≤ maxExponent
  | add f g | sub f g => f.Fits ∧ g.Fits

/-- The formula, or its opposite. -/
def withSign (negative : Bool) (f : Formula) : Formula := if negative then minus f else f

@[simp] theorem value_withSign (ρ : Assignment) (negative : Bool) (f : Formula) :
    (f.withSign negative).value ρ = if negative then -f.value ρ else f.value ρ := by
  cases negative <;> rfl

end Formula

/-! ## The grammar -/

/-- Each token ends where the next one starts. -/
def Touching (ts : List Token) : Prop := ts.IsChain fun t u => t.stop = u.start

/-- Names with optional exponents. A name is one of the letters `a` to `z`, and without an exponent
it counts once. -/
inductive WritesPowers : List (Char × Nat) → List Token → Prop
  | nil : WritesPowers [] []
  | bare {x : Char} {i : Nat} {ps : List (Char × Nat)} {ts : List Token} :
      x.isLower = true → WritesPowers ps ts →
      WritesPowers ((x, 1) :: ps) (⟨.letter x, i⟩ :: ts)
  | raised {x : Char} {ds : List Char} {i j : Nat} {ps : List (Char × Nat)} {ts : List Token} :
      x.isLower = true → WritesPowers ps ts →
      WritesPowers ((x, Numeral.value ds) :: ps) (⟨.letter x, i⟩ :: ⟨.digits ds, j⟩ :: ts)

/-- An optional coefficient and names, of which at least one token is there. Without a coefficient
it is 1. -/
inductive WritesMonomial : Nat → List (Char × Nat) → List Token → Prop
  | bare {ps : List (Char × Nat)} {ts : List Token} :
      WritesPowers ps ts → ts ≠ [] → Touching ts → WritesMonomial 1 ps ts
  | scaled {ds : List Char} {i : Nat} {ps : List (Char × Nat)} {ts : List Token} :
      WritesPowers ps ts → Touching (⟨.digits ds, i⟩ :: ts) →
      WritesMonomial (Numeral.value ds) ps (⟨.digits ds, i⟩ :: ts)

/-- What a piece of a text is read as. -/
inductive Category
  | factor
  | product
  | sum

/-- The grammar of formulas: the tokens are written for the formula, as a piece of the category. -/
inductive Derives : Category → Formula → List Token → Prop
  | monomial {c : Nat} {ps : List (Char × Nat)} {ts : List Token} :
      WritesMonomial c ps ts → Derives .factor (.monomial c ps) ts
  | group {f : Formula} {ts : List Token} {i j : Nat} :
      Derives .sum f ts → Derives .factor (.group f) (⟨.opening, i⟩ :: (ts ++ [⟨.closing, j⟩]))
  | plus {f : Formula} {ts : List Token} {i : Nat} :
      Derives .factor f ts → Derives .factor (.plus f) (⟨.operator .add, i⟩ :: ts)
  | minus {f : Formula} {ts : List Token} {i : Nat} :
      Derives .factor f ts → Derives .factor (.minus f) (⟨.operator .sub, i⟩ :: ts)
  | factor {f : Formula} {ts : List Token} : Derives .factor f ts → Derives .product f ts
  | mul {f g : Formula} {ts us : List Token} {i : Nat} :
      Derives .product f ts → Derives .factor g us →
      Derives .product (.mul f g) (ts ++ ⟨.operator .mul, i⟩ :: us)
  | product {f : Formula} {ts : List Token} : Derives .product f ts → Derives .sum f ts
  | add {f g : Formula} {ts us : List Token} {i : Nat} :
      Derives .sum f ts → Derives .product g us →
      Derives .sum (.add f g) (ts ++ ⟨.operator .add, i⟩ :: us)
  | sub {f g : Formula} {ts us : List Token} {i : Nat} :
      Derives .sum f ts → Derives .product g us →
      Derives .sum (.sub f g) (ts ++ ⟨.operator .sub, i⟩ :: us)

/-! ## Texts -/

/-- The text has only spaces, tabs, line feeds and carriage returns. -/
def IsBlankText (text : String) : Prop := ∀ c ∈ text.toList, Lexeme.isBlankChar c = true

/-- The text is written for the formula, blanks left out. -/
def Writes (f : Formula) (text : String) : Prop := Derives .sum f (significantTokens text)

/-- The text is blank, or written for a formula whose groups are nested at most `depth` deep. -/
def WellFormed (depth : Nat) (text : String) : Prop :=
  IsBlankText text ∨ ∃ f, Writes f text ∧ f.depth ≤ depth

/-- The value of a text under an assignment. -/
inductive Denotes (ρ : Assignment) (text : String) : Int → Prop
  | blank : IsBlankText text → Denotes ρ text 0
  | formula {f : Formula} : Writes f text → Denotes ρ text (f.value ρ)

end Expansion
