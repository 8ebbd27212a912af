import Expansion.Proofs.Canonical
import Expansion.Proofs.Formula

/-!
# Terms and polynomials that stand for a formula

Reading a formula goes through lists of terms, which need not be in canonical form, and through
canonical polynomials. A list of terms *adds up* to a formula if its terms are over the letters, no
degree is above that of the formula, and the sum of the values is the value of the formula
(`AddsUp`). A polynomial *represents* a formula if it is canonical and its terms add up to the
formula (`Represents`).

Both are kept by the arithmetic: negating, joining and multiplying lists follows the signs, sums and
products of formulas, and reducing a list that adds up to a formula gives a polynomial that
represents it.
-/

namespace Expansion

namespace Term

/-- The terms have the value of the formula, and no larger degrees. -/
structure AddsUp (f : Formula) (ts : List Term) : Prop where
  lettered : ∀ t ∈ ts, t.monomial.Lettered
  degree : ∀ t ∈ ts, ∀ x, t.monomial.exponent x ≤ f.degree x
  value : ∀ ρ, (ts.map (Term.value ρ)).sum = f.value ρ

namespace AddsUp

variable {f g : Formula} {ts us : List Term}

theorem congr (h : AddsUp f ts) (degree : ∀ x, f.degree x ≤ g.degree x)
    (value : ∀ ρ, f.value ρ = g.value ρ) : AddsUp g ts where
  lettered := h.lettered
  degree := fun t ht x => (h.degree t ht x).trans (degree x)
  value := fun ρ => (h.value ρ).trans (value ρ)

theorem neg (h : AddsUp f ts) : AddsUp (.minus f) (ts.map (- ·)) where
  lettered := List.forall_mem_map.2 h.lettered
  degree := List.forall_mem_map.2 h.degree
  value := fun ρ => by rw [Polynomial.sum_map_neg, h.value, Formula.value]

theorem append (hf : AddsUp f ts) (hg : AddsUp g us) : AddsUp (.add f g) (ts ++ us) where
  lettered := List.forall_mem_append.2 ⟨hf.lettered, hg.lettered⟩
  degree := List.forall_mem_append.2
    ⟨fun t ht x => (hf.degree t ht x).trans (le_max_left _ _),
      fun t ht x => (hg.degree t ht x).trans (le_max_right _ _)⟩
  value := fun ρ => by rw [List.map_append, List.sum_append, hf.value, hg.value, Formula.value]

theorem append_neg (hf : AddsUp f ts) (hg : AddsUp g us) :
    AddsUp (.sub f g) (ts ++ us.map (- ·)) :=
  (hf.append hg.neg).congr (fun _ => le_rfl) fun _ => (sub_eq_add_neg _ _).symm

/-- Every term of `ts` with every term of `us`. -/
theorem products {vs : List Term} (hf : AddsUp f ts) (hg : AddsUp g us)
    (h : (Polynomial.pairs ⟨ts⟩ ⟨us⟩).mapM (fun (s, t) => s.mul? t) = some vs) :
    AddsUp (.mul f g) vs where
  lettered := Polynomial.forall_monomial_products
    (fun s hs t ht => (hf.lettered s hs).mul (hg.lettered t ht)) h
  degree := by
    refine Polynomial.forall_monomial_products
      (P := fun m => ∀ x, m.exponent x ≤ (Formula.mul f g).degree x) ?_ h
    intro s hs t ht _ x
    rw [Monomial.exponent_mul]
    exact add_le_add (hf.degree s hs x) (hg.degree t ht x)
  value := fun ρ => by
    rw [Polynomial.sum_products ρ h, Polynomial.sum_pairs, Formula.value, ← hf.value, ← hg.value]
    rfl

/-- The terms of a product of two formulas can be multiplied if the product fits. -/
theorem degree_mul_le (hf : AddsUp f ts) (hg : AddsUp g us) (fits : (Formula.mul f g).Fits) :
    ∀ s ∈ ts, ∀ t ∈ us, ∀ x, s.monomial.exponent x + t.monomial.exponent x ≤ maxExponent :=
  fun s hs t ht x => (add_le_add (hf.degree s hs x) (hg.degree t ht x)).trans (fits.2.2 x)

end AddsUp

end Term

namespace Polynomial

open Term

/-- The polynomial is canonical, and its terms add up to the formula. -/
structure Represents (f : Formula) (p : Polynomial) : Prop extends AddsUp f p.terms where
  canonical : p.Canonical

/-- Reducing terms that add up to a formula gives a polynomial that represents it. -/
theorem represents_reduce {f : Formula} {ts : List Term} (h : AddsUp f ts) :
    Represents f (reduce ts) where
  lettered := forall_monomial_reduce Monomial.lettered_one h.lettered
  degree := forall_monomial_reduce (P := fun m => ∀ x, m.exponent x ≤ f.degree x)
    (fun _ => Nat.zero_le _) h.degree
  value := fun ρ => (value_reduce ρ ts).trans (h.value ρ)
  canonical := canonical_reduce fun t ht => (h.lettered t ht).weighable

namespace Represents

variable {f g : Formula} {p q : Polynomial}

theorem congr (h : Represents f p) (degree : ∀ x, f.degree x ≤ g.degree x)
    (value : ∀ ρ, f.value ρ = g.value ρ) : Represents g p :=
  ⟨h.toAddsUp.congr degree value, h.canonical⟩

theorem ofTerm {t : Term} (h : AddsUp f [t]) : Represents f (ofTerm t) := represents_reduce h

theorem withSign (h : Represents f p) (negative : Bool) :
    Represents (f.withSign negative) (p.withSign negative) := by
  cases negative with
  | false => exact h
  | true => exact represents_reduce h.neg

theorem add (hf : Represents f p) (hg : Represents g q) : Represents (.add f g) (p + q) :=
  represents_reduce (hf.append hg.toAddsUp)

theorem sub (hf : Represents f p) (hg : Represents g q) : Represents (.sub f g) (p - q) :=
  represents_reduce (hf.append_neg hg.toAddsUp)

theorem mul? {r : Polynomial} (hf : Represents f p) (hg : Represents g q)
    (h : p.mul? q = some r) : Represents (.mul f g) r := by
  obtain ⟨ts, products, rfl⟩ := mul?_eq_some h
  exact represents_reduce (hf.toAddsUp.products hg.toAddsUp products)

/-- The product of two polynomials exists if the product of their formulas fits. -/
theorem exists_mul? (hf : Represents f p) (hg : Represents g q) (fits : (Formula.mul f g).Fits) :
    ∃ r, p.mul? q = some r :=
  Polynomial.exists_mul? (fun t ht => (hg.lettered t ht).toNormal)
    (hf.degree_mul_le hg.toAddsUp fits)

end Represents

end Polynomial

end Expansion
