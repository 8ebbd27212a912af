import Expansion.Proofs.Reduction
import Mathlib.Algebra.BigOperators.Ring.List

/-!
# Values

Under an assignment of integers to names, a monomial has a value, and so have terms and
polynomials. The value of a polynomial is a sum over its terms that is additive in the factors, so
reduction keeps it (`value_reduce`), and the arithmetic of polynomials is the arithmetic of their
values.

A product may fail to exist, but not if the exponents of each name in the two factors add up to at
most `maxExponent` (`exists_mul?`).
-/

namespace Expansion

/-- Integers for names. -/
abbrev Assignment := Char → Int

namespace Monomial

variable (ρ : Assignment)

/-- The product of the powers. -/
def powersValue (ps : List (Char × Nat)) : Int := (ps.map fun (x, e) => ρ x ^ e).prod

/-- The value of a monomial. -/
def value (m : Monomial) : Int := powersValue ρ m.powers

@[simp] theorem powersValue_nil : powersValue ρ [] = 1 := rfl

@[simp] theorem powersValue_cons (x : Char) (e : Nat) (ps : List (Char × Nat)) :
    powersValue ρ ((x, e) :: ps) = ρ x ^ e * powersValue ρ ps := by
  simp [powersValue]

@[simp] theorem value_one : one.value ρ = 1 := rfl

theorem powersValue_raise (x : Char) (e : Nat) (ps : List (Char × Nat)) :
    powersValue ρ (raise x e ps) = ρ x ^ e * powersValue ρ ps := by
  induction ps with
  | nil => simp [raise]
  | cons p ps ih =>
    obtain ⟨y, d⟩ := p
    rw [raise]
    split
    · rw [powersValue_cons]
    split
    · next same => rw [powersValue_cons, powersValue_cons, same, pow_add]; ring
    · rw [powersValue_cons, powersValue_cons, ih]; ring

theorem value_mulPower (m : Monomial) (x : Char) (e : Nat) :
    (m.mulPower x e).value ρ = ρ x ^ e * m.value ρ := by
  rw [mulPower]
  split
  · next zero => rw [zero, pow_zero, one_mul]
  · exact powersValue_raise ρ x e m.powers

theorem value_mulPowers (ps : List (Char × Nat)) (m : Monomial) :
    (mulPowers ps m).value ρ = powersValue ρ ps * m.value ρ := by
  induction ps with
  | nil => simp [mulPowers]
  | cons p ps ih =>
    obtain ⟨x, e⟩ := p
    show ((mulPowers ps m).mulPower x e).value ρ = _
    rw [value_mulPower, ih, powersValue_cons, mul_assoc]

theorem value_mul (m n : Monomial) : (m.mul n).value ρ = m.value ρ * n.value ρ :=
  value_mulPowers ρ m.powers n

end Monomial

namespace Term

/-- The value of a term. -/
def value (ρ : Assignment) (t : Term) : Int := t.factor * t.monomial.value ρ

theorem additiveInFactor_value (ρ : Assignment) : AdditiveInFactor (value ρ) :=
  fun a b m => add_mul a b (m.value ρ)

@[simp] theorem value_neg (ρ : Assignment) (t : Term) : (-t).value ρ = -t.value ρ :=
  neg_mul t.factor (t.monomial.value ρ)

theorem mul?_eq_some {s t u : Term} (h : s.mul? t = some u) :
    u = ⟨s.factor * t.factor, s.monomial.mul t.monomial⟩ ∧ u.monomial.fits = true := by
  by_cases fits : (s.monomial.mul t.monomial).fits = true
  · obtain rfl := Option.some.inj ((if_pos fits).symm.trans h)
    exact ⟨rfl, fits⟩
  · cases (if_neg fits).symm.trans h

theorem value_mul? {s t u : Term} (h : s.mul? t = some u) (ρ : Assignment) :
    u.value ρ = s.value ρ * t.value ρ := by
  obtain ⟨rfl, -⟩ := mul?_eq_some h
  simp only [value, Monomial.value_mul]
  ring

/-- The product of two terms exists if no exponent gets too large. -/
theorem exists_mul? {s t : Term} (ht : t.monomial.Normal)
    (small : ∀ x, s.monomial.exponent x + t.monomial.exponent x ≤ maxExponent) :
    ∃ u, s.mul? t = some u := ⟨_, if_pos ((ht.fits_mul_iff s.monomial).2 small)⟩

end Term

namespace Polynomial

open Term

/-- The value of a polynomial. -/
def value (ρ : Assignment) (p : Polynomial) : Int := (p.terms.map (Term.value ρ)).sum

/-- Reduction keeps the value. -/
@[simp] theorem value_reduce (ρ : Assignment) (ts : List Term) :
    (reduce ts).value ρ = (ts.map (Term.value ρ)).sum :=
  sum_reduce (additiveInFactor_value ρ) ts

theorem sum_map_neg (ρ : Assignment) (ts : List Term) :
    ((ts.map (- ·)).map (Term.value ρ)).sum = -(ts.map (Term.value ρ)).sum := by
  induction ts with
  | nil => rfl
  | cons t ts ih =>
    rw [List.map_cons, List.map_cons, List.sum_cons, ih, List.map_cons, List.sum_cons, value_neg,
      neg_add]

@[simp] theorem value_neg (ρ : Assignment) (p : Polynomial) : (-p).value ρ = -p.value ρ := by
  rw [neg_def, value_reduce, sum_map_neg, value]

@[simp] theorem value_add (ρ : Assignment) (p q : Polynomial) :
    (p + q).value ρ = p.value ρ + q.value ρ := by
  rw [add_def, value_reduce, List.map_append, List.sum_append, value, value]

@[simp] theorem value_sub (ρ : Assignment) (p q : Polynomial) :
    (p - q).value ρ = p.value ρ - q.value ρ := by
  rw [sub_def, value_reduce, List.map_append, List.sum_append, sum_map_neg, value, value,
    sub_eq_add_neg]

/-! ## Products -/

theorem mul?_eq_some {p q r : Polynomial} (h : p.mul? q = some r) :
    ∃ ts, (pairs p q).mapM (fun (s, t) => Term.mul? s t) = some ts ∧ r = reduce ts := by
  obtain ⟨ts, products, rfl⟩ := Option.map_eq_some_iff.1 h
  exact ⟨ts, products, rfl⟩

theorem sum_products {l : List (Term × Term)} {ts : List Term} (ρ : Assignment)
    (h : l.mapM (fun (s, t) => Term.mul? s t) = some ts) :
    (ts.map (Term.value ρ)).sum = (l.map fun p => p.1.value ρ * p.2.value ρ).sum := by
  induction l generalizing ts with
  | nil =>
    obtain rfl := Option.some.inj h
    rfl
  | cons p l ih =>
    rw [List.mapM_cons] at h
    obtain ⟨u, first, h⟩ := Option.bind_eq_some_iff.1 h
    obtain ⟨us, rest, h⟩ := Option.bind_eq_some_iff.1 h
    obtain rfl := Option.some.inj h
    simp only [List.map_cons, List.sum_cons, ih rest, value_mul? first]

/-- The values of all pairs add up to the product of the values. -/
theorem sum_pairs (ρ : Assignment) (p q : Polynomial) :
    ((pairs p q).map fun pair => pair.1.value ρ * pair.2.value ρ).sum = p.value ρ * q.value ρ := by
  rw [pairs, value, value]
  induction p.terms with
  | nil => simp
  | cons s ss ih =>
    rw [List.flatMap_cons, List.map_append, List.sum_append, ih, List.map_cons, List.sum_cons,
      add_mul, List.map_map, ← List.sum_map_mul_left (r := s.value ρ)]
    rfl

/-- The value of a product is the product of the values. -/
theorem value_mul? {p q r : Polynomial} (h : p.mul? q = some r) (ρ : Assignment) :
    r.value ρ = p.value ρ * q.value ρ := by
  obtain ⟨ts, products, rfl⟩ := mul?_eq_some h
  rw [value_reduce, sum_products ρ products, sum_pairs]

theorem mem_pairs {p q : Polynomial} {s t : Term} :
    (s, t) ∈ pairs p q ↔ s ∈ p.terms ∧ t ∈ q.terms := by
  rw [pairs, List.mem_flatMap]
  constructor
  · rintro ⟨s', hs, pair⟩
    obtain ⟨t', ht, eq⟩ := List.mem_map.1 pair
    obtain ⟨rfl, rfl⟩ := Prod.mk.inj eq
    exact ⟨hs, ht⟩
  · rintro ⟨hs, ht⟩
    exact ⟨s, hs, List.mem_map_of_mem ht⟩

theorem mem_products {l : List (Term × Term)} {ts : List Term}
    (h : l.mapM (fun (s, t) => Term.mul? s t) = some ts) {u : Term} (hu : u ∈ ts) :
    ∃ p ∈ l, Term.mul? p.1 p.2 = some u := by
  induction l generalizing ts with
  | nil =>
    obtain rfl := Option.some.inj h
    cases hu
  | cons p l ih =>
    rw [List.mapM_cons] at h
    obtain ⟨v, first, h⟩ := Option.bind_eq_some_iff.1 h
    obtain ⟨vs, rest, h⟩ := Option.bind_eq_some_iff.1 h
    obtain rfl := Option.some.inj h
    rcases List.mem_cons.1 hu with rfl | hu
    · exact ⟨p, List.mem_cons_self, first⟩
    · obtain ⟨q, hq, product⟩ := ih rest hu
      exact ⟨q, List.mem_cons_of_mem _ hq, product⟩

/-- The monomials of the products are products of monomials of `p` and `q` that fit. -/
theorem forall_monomial_products {P : Monomial → Prop} {p q : Polynomial} {ts : List Term}
    (h : ∀ s ∈ p.terms, ∀ t ∈ q.terms, (s.monomial.mul t.monomial).fits = true →
      P (s.monomial.mul t.monomial))
    (products : (pairs p q).mapM (fun (s, t) => Term.mul? s t) = some ts) :
    ∀ u ∈ ts, P u.monomial := by
  intro u hu
  obtain ⟨⟨s, t⟩, pair, eq⟩ := mem_products products hu
  obtain ⟨hs, ht⟩ := mem_pairs.1 pair
  obtain ⟨rfl, fits⟩ := Term.mul?_eq_some eq
  exact h s hs t ht fits

theorem exists_products {l : List (Term × Term)} (h : ∀ p ∈ l, ∃ u, Term.mul? p.1 p.2 = some u) :
    ∃ ts, l.mapM (fun (s, t) => Term.mul? s t) = some ts := by
  induction l with
  | nil => exact ⟨[], rfl⟩
  | cons p l ih =>
    obtain ⟨⟨u, first⟩, rest⟩ := (List.forall_mem_cons.1 h).imp_right ih
    obtain ⟨us, rest⟩ := rest
    refine ⟨u :: us, ?_⟩
    rw [List.mapM_cons, rest]
    simp [first]

theorem exists_of_products {l : List (Term × Term)} {ts : List Term}
    (h : l.mapM (fun (s, t) => Term.mul? s t) = some ts) :
    ∀ p ∈ l, ∃ u ∈ ts, Term.mul? p.1 p.2 = some u := by
  induction l generalizing ts with
  | nil => exact nofun
  | cons p l ih =>
    rw [List.mapM_cons] at h
    obtain ⟨u, first, h⟩ := Option.bind_eq_some_iff.1 h
    obtain ⟨us, rest, h⟩ := Option.bind_eq_some_iff.1 h
    obtain rfl := Option.some.inj h
    refine List.forall_mem_cons.2 ⟨⟨u, List.mem_cons_self, first⟩, fun q hq => ?_⟩
    obtain ⟨v, hv, product⟩ := ih rest q hq
    exact ⟨v, List.mem_cons_of_mem _ hv, product⟩

/-- Each pair of terms has its product among the products. -/
theorem exists_product_of_mem {p q : Polynomial} {ts : List Term}
    (products : (pairs p q).mapM (fun (s, t) => Term.mul? s t) = some ts) {s t : Term}
    (hs : s ∈ p.terms) (ht : t ∈ q.terms) : ∃ u ∈ ts, s.mul? t = some u :=
  exists_of_products products _ (mem_pairs.2 ⟨hs, ht⟩)

/-- In a product that exists, the exponents of no pair of terms add up to more than allowed. -/
theorem exponents_le_of_mul? {p q r : Polynomial} (hq : ∀ t ∈ q.terms, t.monomial.Normal)
    (h : p.mul? q = some r) : ∀ s ∈ p.terms, ∀ t ∈ q.terms, ∀ x,
      s.monomial.exponent x + t.monomial.exponent x ≤ maxExponent := by
  obtain ⟨ts, products, -⟩ := mul?_eq_some h
  intro s hs t ht
  obtain ⟨u, -, product⟩ := exists_product_of_mem products hs ht
  obtain ⟨rfl, fits⟩ := Term.mul?_eq_some product
  exact ((hq t ht).fits_mul_iff s.monomial).1 fits

/-- All pairs of terms have products if no exponent gets too large. -/
theorem exists_products_of_le {p q : Polynomial} (hq : ∀ t ∈ q.terms, t.monomial.Normal)
    (small : ∀ s ∈ p.terms, ∀ t ∈ q.terms, ∀ x,
      s.monomial.exponent x + t.monomial.exponent x ≤ maxExponent) :
    ∃ ts, (pairs p q).mapM (fun (s, t) => Term.mul? s t) = some ts := by
  refine exists_products ?_
  rintro ⟨s, t⟩ pair
  obtain ⟨hs, ht⟩ := mem_pairs.1 pair
  exact Term.exists_mul? (hq t ht) (small s hs t ht)

/-- The product of two polynomials exists if no exponent gets too large. -/
theorem exists_mul? {p q : Polynomial} (hq : ∀ t ∈ q.terms, t.monomial.Normal)
    (small : ∀ s ∈ p.terms, ∀ t ∈ q.terms, ∀ x,
      s.monomial.exponent x + t.monomial.exponent x ≤ maxExponent) :
    ∃ r, p.mul? q = some r := by
  obtain ⟨ts, eq⟩ := exists_products_of_le hq small
  exact ⟨reduce ts, by rw [mul?, eq]; rfl⟩

end Polynomial

end Expansion
