import Mathlib
import Expansion.Proofs.Fields
import Expansion.Proofs.SummandTerms

/-!
# Products of terms

**Theorem (`mul?_partial_monoid`).** Valid terms, whatever their names and factors are, form a
partial commutative monoid. Whether a product exists depends neither on the order nor on the
grouping of its factors, but only on the exponents: for every name, those of all factors must add up
to at most `maxExponent`. Counting exponents one after another, and giving up at the first that gets
too large, comes to the same.

Exponents add up in a product, and they determine it, because it is in normal form. So the laws of
products are laws of sums. If a product of two of three factors is too large, the product of all
three is too large as well (`mul?_bind_mul?`), and this is why no grouping can hide it.
-/

namespace Expansion

namespace Monomial

variable {a b c : Monomial}

theorem Normal.mul_comm (ha : a.Normal) (hb : b.Normal) : a.mul b = b.mul a :=
  (hb.mul a).ext (ha.mul b) fun x => by rw [exponent_mul, exponent_mul, Nat.add_comm]

theorem Normal.mul_assoc (a b : Monomial) (hc : c.Normal) :
    (a.mul b).mul c = a.mul (b.mul c) :=
  (hc.mul (a.mul b)).ext ((hc.mul b).mul a) fun x => by simp only [exponent_mul, Nat.add_assoc]

/-- If a product of three fits, then so does that of the first two. -/
theorem Normal.fits_of_fits_mul (hb : b.Normal) (hc : c.Normal)
    (h : ((a.mul b).mul c).fits = true) : (a.mul b).fits = true := by
  refine (hb.mul a).fits_iff.2 fun x => ?_
  have whole := (hc.fits_mul_iff (a.mul b)).1 h x
  exact (Nat.le_add_right _ _).trans whole

end Monomial

namespace Term

variable {s t u p : Term}

/-! ## Two factors -/

/-- A product exists unless the exponents of some name add up to too much. -/
theorem mul?_eq_none_iff (ht : t.Valid) :
    s.mul? t = none ↔ ∃ x, maxExponent < s.monomial.exponent x + t.monomial.exponent x := by
  rw [mul?, ite_eq_right_iff, imp_iff_not (Option.some_ne_none _), ht.toNormal.fits_mul_iff]
  push Not
  rfl

theorem mul?_comm (hs : s.Valid) (ht : t.Valid) : s.mul? t = t.mul? s := by
  rw [mul?, mul?, hs.toNormal.mul_comm ht.toNormal, mul_comm s.factor]

theorem valid_of_mul? (ht : t.Valid) (h : s.mul? t = some p) : p.Valid := by
  obtain ⟨rfl, fits⟩ := mul?_eq_some h
  exact ⟨ht.toNormal.mul s.monomial, fits⟩

/-! ## Three factors -/

/-- Multiplying by one factor after the other is multiplying by all of them at once. -/
theorem mul?_bind_mul? (ht : t.Valid) (hu : u.Valid) : (s.mul? t).bind (·.mul? u) =
    if ((s.monomial.mul t.monomial).mul u.monomial).fits then
      some ⟨s.factor * t.factor * u.factor, (s.monomial.mul t.monomial).mul u.monomial⟩
    else none := by
  by_cases fits : ((s.monomial.mul t.monomial).mul u.monomial).fits = true
  · have first : s.mul? t = some ⟨s.factor * t.factor, s.monomial.mul t.monomial⟩ :=
      if_pos (ht.toNormal.fits_of_fits_mul hu.toNormal fits)
    rw [first]
    rfl
  · rw [if_neg fits]
    cases first : s.mul? t with
    | none => rfl
    | some p =>
      obtain ⟨rfl, -⟩ := mul?_eq_some first
      exact if_neg fits

theorem mul?_assoc (hs : s.Valid) (ht : t.Valid) (hu : u.Valid) :
    (s.mul? t).bind (·.mul? u) = (t.mul? u).bind (s.mul? ·) := by
  have swapped : (t.mul? u).bind (s.mul? ·) = (t.mul? u).bind (·.mul? s) :=
    Option.bind_congr fun p h => mul?_comm hs (valid_of_mul? hu h)
  have monomials : (s.monomial.mul t.monomial).mul u.monomial =
      (t.monomial.mul u.monomial).mul s.monomial := by
    rw [Monomial.Normal.mul_assoc _ _ hu.toNormal,
      hs.toNormal.mul_comm (hu.toNormal.mul t.monomial)]
  have factors : s.factor * t.factor * u.factor = t.factor * u.factor * s.factor := by ring
  rw [swapped, mul?_bind_mul? ht hu, mul?_bind_mul? hu hs, monomials, factors]

/-- A product of three exists unless the exponents of some name add up to too much. -/
theorem mul?_bind_eq_none_iff (ht : t.Valid) (hu : u.Valid) : (s.mul? t).bind (·.mul? u) = none ↔
    ∃ x, maxExponent < s.monomial.exponent x + t.monomial.exponent x + u.monomial.exponent x := by
  cases first : s.mul? t with
  | none =>
    obtain ⟨x, large⟩ := (mul?_eq_none_iff ht).1 first
    exact iff_of_true rfl ⟨x, by omega⟩
  | some p =>
    obtain ⟨rfl, -⟩ := mul?_eq_some first
    show mul? _ u = none ↔ _
    simp only [mul?_eq_none_iff hu, Monomial.exponent_mul]

/-- Terms with partial products are a commutative monoid: order and grouping do not matter, neither
for the product nor for whether there is one, 1 is neutral, and signs can be taken out. There is a
product unless the exponents of some name add up to more than `maxExponent`, and it is valid. In
three fields it is found by counting all exponents together. -/
theorem mul?_partial_monoid (hs : s.Valid) (ht : t.Valid) (hu : u.Valid) :
    s.mul? t = t.mul? s ∧
    (s.mul? t).bind (·.mul? u) = (t.mul? u).bind (s.mul? ·) ∧
    (s.mul? t = none ↔
      ∃ x, maxExponent < s.monomial.exponent x + t.monomial.exponent x) ∧
    ((s.mul? t).bind (·.mul? u) = none ↔
      ∃ x, maxExponent <
        s.monomial.exponent x + t.monomial.exponent x + u.monomial.exponent x) ∧
    (constant 1).mul? s = some s ∧ s.mul? (constant 1) = some s ∧
    (-s).mul? t = (s.mul? t).map (- ·) ∧
    (∀ p, s.mul? t = some p → p.Valid) ∧
    s.fields.mul? t.fields = (s.mul? t).map fields := by
  have one : (constant 1).mul? s = some s := one_mul? hs.fits
  refine ⟨mul?_comm hs ht, mul?_assoc hs ht hu, mul?_eq_none_iff ht, mul?_bind_eq_none_iff ht hu,
    one, ?_, Summands.mul?_withSign true s t, fun p => valid_of_mul? ht, (fields_mul? ht).symm⟩
  have valid_one : (constant 1).Valid := Monomial.valid_one
  rw [mul?_comm hs valid_one, one]

/-- The first two factors can be multiplied, although one of them is 0, up to the largest exponent.
With the third there is no product in any grouping. -/
theorem mul?_partial_monoid_zero_factor :
    mul? ⟨0, ⟨[('é', 600)]⟩⟩ ⟨-2, ⟨[('b', 1), ('é', 400)]⟩⟩ =
      some ⟨0, ⟨[('b', 1), ('é', 1000)]⟩⟩ ∧
    mul? ⟨-2, ⟨[('b', 1), ('é', 400)]⟩⟩ ⟨0, ⟨[('é', 600)]⟩⟩ =
      some ⟨0, ⟨[('b', 1), ('é', 1000)]⟩⟩ ∧
    (mul? ⟨0, ⟨[('é', 600)]⟩⟩ ⟨-2, ⟨[('b', 1), ('é', 400)]⟩⟩).bind (·.mul? ⟨3, ⟨[('é', 1)]⟩⟩) =
      none ∧
    (mul? ⟨-2, ⟨[('b', 1), ('é', 400)]⟩⟩ ⟨3, ⟨[('é', 1)]⟩⟩).bind (mul? ⟨0, ⟨[('é', 600)]⟩⟩ ·) =
      none := by
  have valid_s : Monomial.Valid ⟨[('é', 600)]⟩ := by decide
  have valid_t : Monomial.Valid ⟨[('b', 1), ('é', 400)]⟩ := by decide
  have valid_u : Monomial.Valid ⟨[('é', 1)]⟩ := by decide
  obtain ⟨comm, assoc, -, none_iff, -⟩ := mul?_partial_monoid (s := ⟨0, ⟨[('é', 600)]⟩⟩)
    (t := ⟨-2, ⟨[('b', 1), ('é', 400)]⟩⟩) (u := ⟨3, ⟨[('é', 1)]⟩⟩) valid_s valid_t valid_u
  have product : mul? ⟨0, ⟨[('é', 600)]⟩⟩ ⟨-2, ⟨[('b', 1), ('é', 400)]⟩⟩ =
      some ⟨0, ⟨[('b', 1), ('é', 1000)]⟩⟩ := by decide
  have no_product := none_iff.2 ⟨'é', by decide⟩
  exact ⟨product, comm.symm.trans product, no_product, assoc.symm.trans no_product⟩

end Term

end Expansion
