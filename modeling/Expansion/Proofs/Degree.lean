import Expansion.Proofs.Uniqueness
import Mathlib.Algebra.MvPolynomial.NoZeroDivisors

/-!
# Degrees

The *degree* of a polynomial in a name is the largest exponent that the name has in a term.

**Theorem (`degree_mul?`).** Degrees add up in a product of polynomials that are not zero.

**Theorem (`mul?_regroup`).** Whether a product of three polynomials is grouped to the left or to
the right, it is the same polynomial, or it does not exist; and it exists exactly if no degrees add
up to more than `maxExponent`.

Terms of a product may cancel, and an exponent that was too large could go with them. It does not:
read as a multivariate polynomial over the integers, a product of two that are not zero has the sum
of their degrees. So an intermediate product hides no exponent from the next one.
-/

namespace Expansion

noncomputable section

open MvPolynomial

namespace Polynomial

open Term

/-! ## The degree in a name -/

/-- The largest exponent of `x` in the terms. -/
def degree (x : Char) (p : Polynomial) : Nat :=
  (p.terms.map (·.monomial.exponent x)).foldr max 0

theorem degree_le_iff {x : Char} {p : Polynomial} {d : Nat} :
    p.degree x ≤ d ↔ ∀ t ∈ p.terms, t.monomial.exponent x ≤ d := by
  unfold degree
  induction p.terms with
  | nil => simp
  | cons t ts ih => rw [List.map_cons, List.foldr_cons, max_le_iff, ih, List.forall_mem_cons]

theorem exponent_le_degree {x : Char} {p : Polynomial} {t : Term} (ht : t ∈ p.terms) :
    t.monomial.exponent x ≤ p.degree x := degree_le_iff.1 le_rfl t ht

/-- A polynomial with terms attains its degree. -/
theorem exists_exponent_eq_degree (x : Char) {p : Polynomial} (h : p.terms ≠ []) :
    ∃ t ∈ p.terms, t.monomial.exponent x = p.degree x := by
  by_contra none
  push Not at none
  have below : ∀ t ∈ p.terms, t.monomial.exponent x < p.degree x :=
    fun t ht => lt_of_le_of_ne (exponent_le_degree ht) (none t ht)
  obtain ⟨t, ht⟩ := List.exists_mem_of_ne_nil _ h
  have pos := below t ht
  have : p.degree x ≤ p.degree x - 1 := degree_le_iff.2 fun u hu => Nat.le_sub_one_of_lt (below u hu)
  omega

/-! ## As a multivariate polynomial -/

theorem exists_mem_of_mem_support {m : Char →₀ ℕ} {ts : List Term}
    (h : m ∈ (denote ts).support) : ∃ t ∈ ts, t.monomial.exponents = m := by
  classical
  unfold denote at h
  induction ts with
  | nil => simp at h
  | cons t ts ih =>
    rw [List.map_cons, List.sum_cons] at h
    rcases Finset.mem_union.1 (support_add h) with first | rest
    · exact ⟨t, List.mem_cons_self, (Finset.mem_singleton.1 (support_monomial_subset first)).symm⟩
    · obtain ⟨u, hu, eq⟩ := ih rest
      exact ⟨u, List.mem_cons_of_mem _ hu, eq⟩

/-- A canonical polynomial over digit names that is not 0. -/
structure Proper (p : Polynomial) : Prop where
  canonical : p.Canonical
  weighable : ∀ t ∈ p.terms, t.monomial.Weighable
  ne_zero : p ≠ zero

instance (p : Polynomial) : Decidable p.Proper :=
  decidable_of_iff (p.Canonical ∧ (∀ t ∈ p.terms, t.monomial.Weighable) ∧ p ≠ zero)
    ⟨fun h => ⟨h.1, h.2.1, h.2.2⟩, fun h => ⟨h.canonical, h.weighable, h.ne_zero⟩⟩

namespace Proper

variable {p q r : Polynomial}

theorem normal (h : p.Proper) : ∀ t ∈ p.terms, t.monomial.Normal := fun t ht => (h.weighable t ht).normal

theorem factor_ne_zero (h : p.Proper) {t : Term} (ht : t ∈ p.terms) : t.factor ≠ 0 := by
  have terms_ne : p.terms ≠ [.zero] := fun eq => h.ne_zero (congrArg Polynomial.mk eq)
  rw [Ne, ← isZero_iff, h.canonical.nonzero terms_ne t ht]
  exact Bool.false_ne_true

theorem mem_support (h : p.Proper) {t : Term} (ht : t ∈ p.terms) :
    t.monomial.exponents ∈ (denote p.terms).support := by
  rw [mem_support_iff, coeff_denote (h.normal t ht) h.normal,
    coefficient_of_mem h.canonical.distinct ht]
  exact h.factor_ne_zero ht

theorem denote_ne_zero (h : p.Proper) : denote p.terms ≠ 0 := by
  obtain ⟨t, ht⟩ := List.exists_mem_of_ne_nil _ h.canonical.nonempty
  exact support_nonempty.1 ⟨_, h.mem_support ht⟩

theorem degreeOf_denote (h : p.Proper) (x : Char) : (denote p.terms).degreeOf x = p.degree x := by
  apply le_antisymm
  · rw [degreeOf_le_iff]
    intro m hm
    obtain ⟨t, ht, rfl⟩ := exists_mem_of_mem_support hm
    rw [Monomial.exponents_apply]
    exact exponent_le_degree ht
  · rw [degree_le_iff]
    intro t ht
    rw [← Monomial.exponents_apply]
    exact monomial_le_degreeOf x (h.mem_support ht)

end Proper

/-! ## Products -/

/-- A product of polynomials is their product as multivariate polynomials. -/
theorem denote_mul? {p q r : Polynomial} (h : p.mul? q = some r) :
    denote r.terms = denote p.terms * denote q.terms := by
  apply MvPolynomial.funext
  intro ρ
  rw [map_mul, eval_denote, eval_denote, eval_denote]
  exact value_mul? h ρ

namespace Proper

variable {p q r u v : Polynomial}

/-- The product of polynomials that are not zero is not zero. -/
theorem mul? (hp : p.Proper) (hq : q.Proper) (h : p.mul? q = some r) : r.Proper := by
  have denote_eq := denote_mul? h
  obtain ⟨ts, products, rfl⟩ := mul?_eq_some h
  have weighable : ∀ t ∈ ts, t.monomial.Weighable := forall_monomial_products
    (fun s hs t ht _ => (hp.weighable s hs).mul (hq.weighable t ht)) products
  refine ⟨canonical_reduce weighable,
    forall_monomial_reduce Monomial.weighable_one weighable, ?_⟩
  intro zero
  have denote_zero : denote [.zero] = 0 := by simp [denote, Term.zero, Term.constant]
  rw [zero] at denote_eq
  exact mul_ne_zero hp.denote_ne_zero hq.denote_ne_zero (denote_eq.symm.trans denote_zero)

/-- Degrees add up in a product. -/
theorem degree_mul? (hp : p.Proper) (hq : q.Proper) (h : p.mul? q = some r) (x : Char) :
    r.degree x = p.degree x + q.degree x := by
  rw [← (hp.mul? hq h).degreeOf_denote, denote_mul? h,
    degreeOf_mul_eq hp.denote_ne_zero hq.denote_ne_zero, hp.degreeOf_denote, hq.degreeOf_denote]

/-- A product exists unless the degrees in some name add up to too much. -/
theorem mul?_eq_none_iff (hp : p.Proper) (hq : q.Proper) :
    p.mul? q = none ↔ ∃ x, maxExponent < p.degree x + q.degree x := by
  constructor
  · intro no_product
    by_contra small
    push Not at small
    obtain ⟨r, product⟩ := exists_mul? hq.normal fun s hs t ht x =>
      (add_le_add (exponent_le_degree hs) (exponent_le_degree ht)).trans (small x)
    rw [product] at no_product
    cases no_product
  · rintro ⟨x, large⟩
    obtain ⟨s, hs, s_degree⟩ := exists_exponent_eq_degree x hp.canonical.nonempty
    obtain ⟨t, ht, t_degree⟩ := exists_exponent_eq_degree x hq.canonical.nonempty
    cases h : p.mul? q with
    | none => rfl
    | some r =>
      have small := exponents_le_of_mul? hq.normal h s hs t ht x
      omega

/-- A product grouped to the left exists unless the degrees in some name add up to too much. -/
theorem mul?_bind_eq_none_iff (hp : p.Proper) (hq : q.Proper) (hr : r.Proper) :
    (p.mul? q).bind (·.mul? r) = none ↔
      ∃ x, maxExponent < p.degree x + q.degree x + r.degree x := by
  cases h : p.mul? q with
  | none =>
    obtain ⟨x, large⟩ := (hp.mul?_eq_none_iff hq).1 h
    exact iff_of_true rfl ⟨x, by omega⟩
  | some u =>
    show u.mul? r = none ↔ _
    rw [(hp.mul? hq h).mul?_eq_none_iff hr]
    simp only [hp.degree_mul? hq h]

/-- A product grouped to the right exists unless the degrees in some name add up to too much. -/
theorem bind_mul?_eq_none_iff (hp : p.Proper) (hq : q.Proper) (hr : r.Proper) :
    (q.mul? r).bind (p.mul? ·) = none ↔
      ∃ x, maxExponent < p.degree x + q.degree x + r.degree x := by
  cases h : q.mul? r with
  | none =>
    obtain ⟨x, large⟩ := (hq.mul?_eq_none_iff hr).1 h
    exact iff_of_true rfl ⟨x, by omega⟩
  | some v =>
    show p.mul? v = none ↔ _
    rw [hp.mul?_eq_none_iff (hq.mul? hr h)]
    simp only [hq.degree_mul? hr h, Nat.add_assoc]

/-- Polynomials that are not zero and have the same values are equal. -/
theorem eq_of_forall_value (hp : p.Proper) (hq : q.Proper) (h : ∀ ρ, p.value ρ = q.value ρ) :
    p = q := hp.canonical.eq_of_forall_value hq.canonical hp.normal hq.normal h

/-- Products that exist with both groupings are equal. -/
theorem mul?_regroup_of_eq_some {left right : Polynomial} (hp : p.Proper) (hq : q.Proper)
    (hr : r.Proper) (pq : p.mul? q = some u) (left_eq : u.mul? r = some left)
    (qr : q.mul? r = some v) (right_eq : p.mul? v = some right) : left = right := by
  apply ((hp.mul? hq pq).mul? hr left_eq).eq_of_forall_value (hp.mul? (hq.mul? hr qr) right_eq)
  intro ρ
  calc left.value ρ
    _ = p.value ρ * q.value ρ * r.value ρ := by rw [value_mul? left_eq, value_mul? pq]
    _ = p.value ρ * (q.value ρ * r.value ρ) := mul_assoc _ _ _
    _ = right.value ρ := by rw [value_mul? right_eq, value_mul? qr]

end Proper

/-- Regrouping a product of three polynomials that are not zero changes nothing: with both groupings
it is the same polynomial or does not exist, and it does not exist exactly if in some name the
degrees add up to more than `maxExponent`. -/
theorem mul?_regroup {p q r : Polynomial} (hp : p.Proper) (hq : q.Proper) (hr : r.Proper) :
    (p.mul? q).bind (·.mul? r) = (q.mul? r).bind (p.mul? ·) ∧
    ((p.mul? q).bind (·.mul? r) = none ↔
      ∃ x, maxExponent < p.degree x + q.degree x + r.degree x) := by
  have left_none := hp.mul?_bind_eq_none_iff hq hr
  have right_none := hp.bind_mul?_eq_none_iff hq hr
  refine ⟨?_, left_none⟩
  cases left : (p.mul? q).bind (·.mul? r) with
  | none => exact (right_none.2 (left_none.1 left)).symm
  | some a =>
    cases right : (q.mul? r).bind (p.mul? ·) with
    | none =>
      rw [left_none.2 (right_none.1 right)] at left
      cases left
    | some b =>
      obtain ⟨u, pq, left⟩ := Option.bind_eq_some_iff.1 left
      obtain ⟨v, qr, right⟩ := Option.bind_eq_some_iff.1 right
      rw [hp.mul?_regroup_of_eq_some hq hr pq left qr right]

/-- `(a500 + 1)(a500 - 1)` has an exponent of 1000 after `a500` has cancelled, so that a factor `a`
is too much with both groupings. -/
theorem mul?_regroup_cancelling :
    (mul? ⟨[⟨1, ⟨[('a', 500)]⟩⟩, ⟨1, .one⟩]⟩ ⟨[⟨1, ⟨[('a', 500)]⟩⟩, ⟨-1, .one⟩]⟩).bind
      (·.mul? ⟨[⟨1, ⟨[('a', 1)]⟩⟩]⟩) = none ∧
    (mul? ⟨[⟨1, ⟨[('a', 500)]⟩⟩, ⟨-1, .one⟩]⟩ ⟨[⟨1, ⟨[('a', 1)]⟩⟩]⟩).bind
      (mul? ⟨[⟨1, ⟨[('a', 500)]⟩⟩, ⟨1, .one⟩]⟩ ·) = none := by
  obtain ⟨same, none_iff⟩ := mul?_regroup (p := ⟨[⟨1, ⟨[('a', 500)]⟩⟩, ⟨1, .one⟩]⟩)
    (q := ⟨[⟨1, ⟨[('a', 500)]⟩⟩, ⟨-1, .one⟩]⟩) (r := ⟨[⟨1, ⟨[('a', 1)]⟩⟩]⟩)
    (by decide) (by decide) (by decide)
  have left := none_iff.2 ⟨'a', by decide⟩
  exact ⟨left, same.symm.trans left⟩

end Polynomial

end

end Expansion
