import Expansion.Proofs.Uniqueness
import Mathlib

/-!
# The ring laws

**Theorem (`ring_laws`).** Polynomials with admissible terms obey the laws of a commutative ring as
identical lists of terms, where products are partial, and bringing an operand into canonical form
first makes no difference.

The two sides of a law sort and merge different lists. But every operation gives a *regular*
polynomial, that is, a canonical one with admissible terms (`Regular`), and regular polynomials with
the same values are equal (`Regular.ext`). So a law of polynomials is a law of integers.

For products there is the question whether they exist. They do if no exponents of two terms add up
to too much (`FitsWith`), and this alone decides it (`mul?_eq_some_iff`).
-/

namespace Expansion

namespace Monomial

/-- A valid monomial over digit names. -/
structure Admissible (m : Monomial) : Prop extends Valid m where
  digits : m.NamesIn IsDigitName

instance (m : Monomial) : Decidable m.Admissible :=
  decidable_of_iff (m.Valid ∧ m.NamesIn IsDigitName)
    ⟨fun h => ⟨h.1, h.2⟩, fun h => ⟨h.toValid, h.digits⟩⟩

@[simp] theorem admissible_one : one.Admissible := ⟨⟨normal_one, rfl⟩, namesIn_one _⟩

theorem Admissible.weighable {m : Monomial} (h : m.Admissible) : m.Weighable :=
  ⟨h.toNormal, h.digits⟩

theorem Admissible.exponent_le {m : Monomial} (h : m.Admissible) (x : Char) :
    m.exponent x ≤ maxExponent := h.toNormal.fits_iff.1 h.fits x

theorem Admissible.mul {m n : Monomial} (hm : m.Admissible) (hn : n.Admissible)
    (fits : (m.mul n).fits = true) : (m.mul n).Admissible :=
  ⟨⟨hn.toNormal.mul m, fits⟩, (hm.weighable.mul hn.weighable).digits⟩

end Monomial

namespace Polynomial

open Term

variable {p q r : Polynomial}

/-! ## Admissible and regular polynomials -/

/-- All terms are valid and over digit names. They need not be sorted or merged. -/
def Admissible (p : Polynomial) : Prop := ∀ t ∈ p.terms, t.monomial.Admissible

instance (p : Polynomial) : Decidable p.Admissible :=
  inferInstanceAs (Decidable (∀ t ∈ p.terms, t.monomial.Admissible))

/-- A canonical polynomial with admissible terms. -/
structure Regular (p : Polynomial) : Prop where
  admissible : p.Admissible
  canonical : p.Canonical

theorem Admissible.normal (h : p.Admissible) : ∀ t ∈ p.terms, t.monomial.Normal :=
  fun t ht => (h t ht).toNormal

/-- Regular polynomials with the same values are equal. -/
theorem Regular.ext (hp : p.Regular) (hq : q.Regular) (h : ∀ ρ, p.value ρ = q.value ρ) : p = q :=
  hp.canonical.eq_of_forall_value hq.canonical hp.admissible.normal hq.admissible.normal h

theorem regular_zero : zero.Regular :=
  ⟨List.forall_mem_singleton.2 Monomial.admissible_one, canonical_zero⟩

theorem regular_reduce {ts : List Term} (h : ∀ t ∈ ts, t.monomial.Admissible) :
    (reduce ts).Regular :=
  ⟨forall_monomial_reduce Monomial.admissible_one h,
    canonical_reduce fun t ht => (h t ht).weighable⟩

namespace Admissible

theorem reduced (hp : p.Admissible) : p.reduced.Regular := regular_reduce hp

theorem neg (hp : p.Admissible) : (-p).Regular := regular_reduce (List.forall_mem_map.2 hp)

theorem add (hp : p.Admissible) (hq : q.Admissible) : (p + q).Regular :=
  regular_reduce (List.forall_mem_append.2 ⟨hp, hq⟩)

theorem sub (hp : p.Admissible) (hq : q.Admissible) : (p - q).Regular :=
  regular_reduce (List.forall_mem_append.2 ⟨hp, List.forall_mem_map.2 hq⟩)

theorem mul? (hp : p.Admissible) (hq : q.Admissible) (h : p.mul? q = some r) : r.Regular := by
  obtain ⟨ts, products, rfl⟩ := mul?_eq_some h
  refine regular_reduce (forall_monomial_products ?_ products)
  intro s hs t ht
  exact (hp s hs).mul (hq t ht)

end Admissible

@[simp] theorem value_reduced (ρ : Assignment) (p : Polynomial) : p.reduced.value ρ = p.value ρ :=
  value_reduce ρ p.terms

@[simp] theorem value_zero (ρ : Assignment) : zero.value ρ = 0 := rfl

/-! ## Products -/

/-- The exponents of no two terms add up to more than `maxExponent`. -/
def FitsWith (p q : Polynomial) : Prop :=
  ∀ s ∈ p.terms, ∀ t ∈ q.terms, ∀ x, s.monomial.exponent x + t.monomial.exponent x ≤ maxExponent

theorem FitsWith.symm (h : p.FitsWith q) : q.FitsWith p := by
  intro t ht s hs x
  rw [Nat.add_comm]
  exact h s hs t ht x

/-- Sums have no other monomials than their terms, apart from 1. -/
theorem fitsWith_reduce {ts : List Term} (hp : p.Admissible) (h : p.FitsWith ⟨ts⟩) :
    p.FitsWith (reduce ts) := by
  intro s hs
  exact forall_monomial_reduce
    (P := fun m => ∀ x, s.monomial.exponent x + m.exponent x ≤ maxExponent)
    (hp s hs).exponent_le (h s hs)

/-- There is a product if and only if no exponent gets too large, and then it is the regular
polynomial with the product of the values. -/
theorem mul?_eq_some_iff (hp : p.Admissible) (hq : q.Admissible) :
    p.mul? q = some r ↔ p.FitsWith q ∧ r.Regular ∧ ∀ ρ, r.value ρ = p.value ρ * q.value ρ := by
  constructor
  · intro h
    exact ⟨exponents_le_of_mul? hq.normal h, hp.mul? hq h, value_mul? h⟩
  · rintro ⟨fits, regular, value⟩
    obtain ⟨u, h⟩ := exists_mul? hq.normal fits
    rw [h, regular.ext (hp.mul? hq h) fun ρ => (value ρ).trans (value_mul? h ρ).symm]

theorem mul?_comm (hp : p.Admissible) (hq : q.Admissible) : p.mul? q = q.mul? p := by
  ext r
  rw [mul?_eq_some_iff hp hq, mul?_eq_some_iff hq hp]
  simp only [mul_comm]
  exact and_congr_left' ⟨.symm, .symm⟩

theorem mul?_add {u v : Polynomial} (hp : p.Admissible) (hq : q.Admissible) (hr : r.Admissible)
    (pq : p.mul? q = some u) (pr : p.mul? r = some v) : p.mul? (q + r) = some (u + v) := by
  obtain ⟨fits, u_regular, u_value⟩ := (mul?_eq_some_iff hp hq).1 pq
  obtain ⟨fits', v_regular, v_value⟩ := (mul?_eq_some_iff hp hr).1 pr
  refine (mul?_eq_some_iff hp (hq.add hr).admissible).2 ⟨?_, ?_, ?_⟩
  · exact fitsWith_reduce hp fun s hs => List.forall_mem_append.2 ⟨fits s hs, fits' s hs⟩
  · exact u_regular.admissible.add v_regular.admissible
  · intro ρ
    rw [value_add, value_add, u_value, v_value, mul_add]

/-! ## Operands in canonical form -/

/-- The first polynomial is the second one, as it is or in canonical form. -/
def IsFormOf (p' p : Polynomial) : Prop := p' = p ∨ p' = p.reduced

namespace IsFormOf

variable {p' q' : Polynomial}

theorem admissible (h : p'.IsFormOf p) (hp : p.Admissible) : p'.Admissible := by
  rcases h with rfl | rfl
  · exact hp
  · exact hp.reduced.admissible

theorem value (h : p'.IsFormOf p) (ρ : Assignment) : p'.value ρ = p.value ρ := by
  rcases h with rfl | rfl <;> simp

theorem fitsWith (h : q'.IsFormOf q) (hp : p.Admissible) (fits : p.FitsWith q) :
    p.FitsWith q' := by
  rcases h with rfl | rfl
  · exact fits
  · exact fitsWith_reduce hp fits

theorem mul? (h : p'.IsFormOf p) (h' : q'.IsFormOf q) (hp : p.Admissible) (hq : q.Admissible)
    (pq : p.mul? q = some r) : p'.mul? q' = some r := by
  obtain ⟨fits, regular, value⟩ := (mul?_eq_some_iff hp hq).1 pq
  refine (mul?_eq_some_iff (h.admissible hp) (h'.admissible hq)).2 ⟨?_, regular, fun ρ => ?_⟩
  · exact h'.fitsWith (h.admissible hp) (h.fitsWith hq fits.symm).symm
  · rw [value, h.value, h'.value]

end IsFormOf

/-! ## The laws -/

/-- Sums, differences, opposites and products obey the laws of a commutative ring, as far as
products exist. It makes no difference whether operands are in canonical form, except that a product
may exist only then. -/
theorem ring_laws (hp : p.Admissible) (hq : q.Admissible) (hr : r.Admissible) :
    p + q = q + p ∧ p + q + r = p + (q + r) ∧ p - q = p + -q ∧ p - p = zero ∧
    p.mul? q = q.mul? p ∧
    (∀ u v, p.mul? q = some u → p.mul? r = some v → p.mul? (q + r) = some (u + v)) ∧
    ∀ p' q', p'.IsFormOf p → q'.IsFormOf q →
      p' + q' = p + q ∧ p' - q' = p - q ∧ -p' = -p ∧
      ∀ u, p.mul? q = some u → p'.mul? q' = some u := by
  refine ⟨?_, ?_, ?_, ?_, mul?_comm hp hq, fun u v => mul?_add hp hq hr, ?_⟩
  · exact (hp.add hq).ext (hq.add hp) fun ρ => by simp [add_comm]
  · have left := (hp.add hq).admissible.add hr
    have right := hp.add (hq.add hr).admissible
    exact left.ext right fun ρ => by simp [add_assoc]
  · exact (hp.sub hq).ext (hp.add hq.neg.admissible) fun ρ => by simp [sub_eq_add_neg]
  · exact (hp.sub hp).ext regular_zero fun ρ => by simp
  · intro p' q' form form'
    have hp' := form.admissible hp
    have hq' := form'.admissible hq
    refine ⟨?_, ?_, ?_, fun u => form.mul? form' hp hq⟩
    · exact (hp'.add hq').ext (hp.add hq) fun ρ => by simp [form.value, form'.value]
    · exact (hp'.sub hq').ext (hp.sub hq) fun ρ => by simp [form.value, form'.value]
    · exact hp'.neg.ext hp.neg fun ρ => by simp [form.value]

/-- Operands that are unsorted, and have terms that are zero or could be merged: `p` is
`-a + 0b + 3a`, and it is multiplied by `2 + a` and by `a - 2`. -/
theorem ring_laws_unsorted :
    (mul? ⟨[⟨-1, ⟨[('a', 1)]⟩⟩, ⟨0, ⟨[('b', 1)]⟩⟩, ⟨3, ⟨[('a', 1)]⟩⟩]⟩
      (⟨[⟨2, .one⟩, ⟨1, ⟨[('a', 1)]⟩⟩]⟩ + ⟨[⟨1, ⟨[('a', 1)]⟩⟩, ⟨-2, .one⟩]⟩) =
        some (⟨[⟨2, ⟨[('a', 2)]⟩⟩, ⟨4, ⟨[('a', 1)]⟩⟩]⟩ +
          ⟨[⟨2, ⟨[('a', 2)]⟩⟩, ⟨-4, ⟨[('a', 1)]⟩⟩]⟩)) ∧
    mul? (reduced ⟨[⟨-1, ⟨[('a', 1)]⟩⟩, ⟨0, ⟨[('b', 1)]⟩⟩, ⟨3, ⟨[('a', 1)]⟩⟩]⟩)
      ⟨[⟨2, .one⟩, ⟨1, ⟨[('a', 1)]⟩⟩]⟩ =
        some ⟨[⟨2, ⟨[('a', 2)]⟩⟩, ⟨4, ⟨[('a', 1)]⟩⟩]⟩ := by
  obtain ⟨-, -, -, -, -, distributes, forms⟩ := ring_laws
    (p := ⟨[⟨-1, ⟨[('a', 1)]⟩⟩, ⟨0, ⟨[('b', 1)]⟩⟩, ⟨3, ⟨[('a', 1)]⟩⟩]⟩)
    (q := ⟨[⟨2, .one⟩, ⟨1, ⟨[('a', 1)]⟩⟩]⟩) (r := ⟨[⟨1, ⟨[('a', 1)]⟩⟩, ⟨-2, .one⟩]⟩)
    (by decide) (by decide) (by decide)
  have left : mul? ⟨[⟨-1, ⟨[('a', 1)]⟩⟩, ⟨0, ⟨[('b', 1)]⟩⟩, ⟨3, ⟨[('a', 1)]⟩⟩]⟩
      ⟨[⟨2, .one⟩, ⟨1, ⟨[('a', 1)]⟩⟩]⟩ =
        some ⟨[⟨2, ⟨[('a', 2)]⟩⟩, ⟨4, ⟨[('a', 1)]⟩⟩]⟩ := by cbv
  have right : mul? ⟨[⟨-1, ⟨[('a', 1)]⟩⟩, ⟨0, ⟨[('b', 1)]⟩⟩, ⟨3, ⟨[('a', 1)]⟩⟩]⟩
      ⟨[⟨1, ⟨[('a', 1)]⟩⟩, ⟨-2, .one⟩]⟩ =
        some ⟨[⟨2, ⟨[('a', 2)]⟩⟩, ⟨-4, ⟨[('a', 1)]⟩⟩]⟩ := by cbv
  exact ⟨distributes _ _ left right, (forms _ _ (.inr rfl) (.inl rfl)).2.2.2 _ left⟩

end Polynomial

end Expansion
