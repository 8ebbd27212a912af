import Expansion.Proofs.Degree
import Expansion.Proofs.GradedOrder
import Mathlib.Algebra.MonoidAlgebra.NoZeroDivisors
import Mathlib.Data.Finsupp.MonomialOrder.DegLex

/-!
# The ends of a product

**Theorem (`ends_of_mul?`).** In a product of polynomials that are not zero, the first term is the
product of the first terms and the last one is the product of the last terms.

In the middle of a product terms may cancel. At its ends there is nothing to cancel with: monomials
are ordered by degree and then alphabetically, and this order respects products. So the highest
monomials have a product that is above all others, and there is one pair of terms only that it comes
from. Its coefficient is the product of two factors, which is not zero. The same holds of the lowest
monomials.
-/

namespace Expansion

noncomputable section

/-! ## The order of exponents -/

namespace Monomial

variable {m n : Monomial}

theorem exponents_mul (m n : Monomial) : (m.mul n).exponents = m.exponents + n.exponents := by
  ext x
  rw [Finsupp.add_apply, exponents_apply, exponents_apply, exponents_apply, exponent_mul]

theorem degree_exponents (m : Monomial) : m.exponents.degree = m.totalDegree := by
  rw [exponents, map_list_sum, List.map_map, totalDegree]
  congr 1
  exact List.map_congr_left fun p _ => Finsupp.degree_single p.1 p.2

/-- The exponents, ordered by their sum and then by the first of them that differs. -/
def graded (m : Monomial) : DegLex (Char →₀ ℕ) := toDegLex m.exponents

theorem graded_lt_iff : m.graded < n.graded ↔ m.GradedLT n := by
  rw [Finsupp.DegLex.lt_iff, GradedLT, ← degree_exponents, ← degree_exponents]
  refine or_congr Iff.rfl (and_congr_right' ?_)
  rw [Finsupp.Lex.lt_iff]
  simp only [← exponents_apply]
  exact exists_congr fun x => and_comm

/-- Products of monomials are sums in the order of exponents. -/
theorem graded_mul (m n : Monomial) : (m.mul n).graded = m.graded + n.graded := by
  rw [graded, exponents_mul, toDegLex_add]
  rfl

end Monomial

/-! ## The ends of lists -/

section

variable {α : Type} {R : α → α → Prop} {a : α} {l : List α}

theorem eq_or_rel_of_head? (h : l.Pairwise R) (first : l.head? = some a) :
    ∀ b ∈ l, b = a ∨ R a b := by
  obtain ⟨l, rfl⟩ := List.head?_eq_some_iff.1 first
  intro b hb
  exact (List.mem_cons.1 hb).imp_right ((List.pairwise_cons.1 h).1 b)

theorem eq_or_rel_of_getLast? (h : l.Pairwise R) (last : l.getLast? = some a) :
    ∀ b ∈ l, b = a ∨ R b a := by
  rw [List.getLast?_eq_head?_reverse] at last
  intro b hb
  exact eq_or_rel_of_head? (List.pairwise_reverse.2 h) last b (List.mem_reverse.2 hb)

theorem head?_of_mem (h : l.Pairwise R) (mem : a ∈ l) (first : ∀ b ∈ l, ¬R b a) :
    l.head? = some a := by
  cases l with
  | nil => cases mem
  | cons b l =>
    rcases List.mem_cons.1 mem with rfl | mem
    · rfl
    · exact absurd ((List.pairwise_cons.1 h).1 a mem) (first b List.mem_cons_self)

theorem getLast?_of_mem (h : l.Pairwise R) (mem : a ∈ l) (last : ∀ b ∈ l, ¬R a b) :
    l.getLast? = some a := by
  rw [List.getLast?_eq_head?_reverse]
  refine head?_of_mem (List.pairwise_reverse.2 h) (List.mem_reverse.2 mem) fun b hb => ?_
  exact last b (List.mem_reverse.1 hb)

end

namespace Polynomial

open Term

namespace Proper

variable {p q r : Polynomial} {s t : Term}

/-- From each term to the next one, the monomials fall in the order of exponents. -/
theorem falling (h : p.Proper) :
    p.terms.Pairwise fun s t => t.monomial.graded < s.monomial.graded := by
  refine (h.canonical.descending.and h.canonical.distinct).imp_of_mem ?_
  rintro s t hs ht ⟨above, distinct⟩
  have below : t.compare s = .lt := by rw [compare_swap s t, above, Ordering.swap]
  rcases (compare_eq_lt_iff (h.weighable t ht) (h.weighable s hs)).1 below with lt | ⟨same, -⟩
  · exact Monomial.graded_lt_iff.2 lt
  · exact absurd same.symm distinct

theorem le_of_head? (h : p.Proper) (first : p.terms.head? = some s) :
    ∀ s' ∈ p.terms, s'.monomial.graded ≤ s.monomial.graded := by
  intro s' hs'
  rcases eq_or_rel_of_head? h.falling first s' hs' with rfl | lt
  · exact le_rfl
  · exact lt.le

theorem ge_of_getLast? (h : p.Proper) (last : p.terms.getLast? = some s) :
    ∀ s' ∈ p.terms, s'.monomial.graded ≥ s.monomial.graded := by
  intro s' hs'
  rcases eq_or_rel_of_getLast? h.falling last s' hs' with rfl | lt
  · exact le_rfl
  · exact lt.le

/-! ## One pair of terms -/

/-- If a monomial of a product comes from one pair of terms only, then its coefficient is the
product of their factors. -/
theorem coefficient_mul? (hp : p.Proper) (hq : q.Proper) (h : p.mul? q = some r)
    (hs : s ∈ p.terms) (ht : t ∈ q.terms)
    (unique : ∀ s' ∈ p.terms, ∀ t' ∈ q.terms,
      s'.monomial.graded + t'.monomial.graded = s.monomial.graded + t.monomial.graded →
      s'.monomial.graded = s.monomial.graded ∧ t'.monomial.graded = t.monomial.graded) :
    coefficient (s.monomial.mul t.monomial) r.terms = s.factor * t.factor := by
  have pair : UniqueAdd (denote p.terms).support (denote q.terms).support s.monomial.exponents
      t.monomial.exponents := by
    intro m n hm hn eq
    obtain ⟨s', hs', rfl⟩ := exists_mem_of_mem_support hm
    obtain ⟨t', ht', rfl⟩ := exists_mem_of_mem_support hn
    exact unique s' hs' t' ht' eq
  have product : ((denote p.terms) * (denote q.terms)).coeff
      (s.monomial.exponents + t.monomial.exponents) =
        (denote p.terms).coeff s.monomial.exponents * (denote q.terms).coeff t.monomial.exponents :=
    AddMonoidAlgebra.coeff_mul_add_of_uniqueAdd pair
  rw [← coeff_denote ((hq.normal t ht).mul s.monomial) (hp.mul? hq h).normal, denote_mul? h,
    Monomial.exponents_mul, product, coeff_denote (hp.normal s hs) hp.normal,
    coeff_denote (hq.normal t ht) hq.normal, coefficient_of_mem hp.canonical.distinct hs,
    coefficient_of_mem hq.canonical.distinct ht]

/-- What is in a product at the end of an order `R` that addition respects: the product of the
terms that are there in the factors. -/
theorem mul?_at_end {R : DegLex (Char →₀ ℕ) → DegLex (Char →₀ ℕ) → Prop}
    (add : ∀ a b c d, R a c → R b d → R (a + b) (c + d))
    (add_eq : ∀ a b c d, R a c → R b d → a + b = c + d → a = c ∧ b = d)
    (hp : p.Proper) (hq : q.Proper) (h : p.mul? q = some r) (hs : s ∈ p.terms) (ht : t ∈ q.terms)
    (p_end : ∀ s' ∈ p.terms, R s'.monomial.graded s.monomial.graded)
    (q_end : ∀ t' ∈ q.terms, R t'.monomial.graded t.monomial.graded) :
    ∃ u ∈ r.terms, s.mul? t = some u ∧ ∀ u' ∈ r.terms, R u'.monomial.graded u.monomial.graded := by
  obtain ⟨ts, products, rfl⟩ := mul?_eq_some h
  obtain ⟨u, -, product⟩ := exists_product_of_mem products hs ht
  obtain ⟨rfl, -⟩ := Term.mul?_eq_some product
  have proper := hp.mul? hq h
  refine ⟨_, ?_, product, fun u' hu' => ?_⟩
  · have nonzero : s.factor * t.factor ≠ 0 :=
      mul_ne_zero (hp.factor_ne_zero hs) (hq.factor_ne_zero ht)
    refine (proper.canonical.mem_iff nonzero).2 (hp.coefficient_mul? hq h hs ht ?_)
    intro s' hs' t' ht' eq
    exact add_eq _ _ _ _ (p_end s' hs') (q_end t' ht') eq
  · -- Nothing is in the product but products of terms.
    obtain rfl | ⟨-, v, hv, same⟩ := exists_monomial_of_mem_reduce hu'
    · exact absurd rfl (proper.factor_ne_zero hu')
    rw [same]
    refine forall_monomial_products (P := fun m => R m.graded (s.monomial.mul t.monomial).graded)
      (fun s' hs' t' ht' _ => ?_) products v hv
    rw [Monomial.graded_mul, Monomial.graded_mul]
    exact add _ _ _ _ (p_end s' hs') (q_end t' ht')

end Proper

/-! ## First and last terms -/

/-- The first term of a product of polynomials that are not zero is the product of their first
terms, and the last term is the product of their last terms. So the product is not zero either. -/
theorem ends_of_mul? {p q r : Polynomial} (hp : p.Proper) (hq : q.Proper) (h : p.mul? q = some r) :
    (∃ s t u, p.terms.head? = some s ∧ q.terms.head? = some t ∧ s.mul? t = some u ∧
      r.terms.head? = some u) ∧
    (∃ s t u, p.terms.getLast? = some s ∧ q.terms.getLast? = some t ∧ s.mul? t = some u ∧
      r.terms.getLast? = some u) ∧
    r ≠ zero := by
  have hr := hp.mul? hq h
  refine ⟨?_, ?_, hr.ne_zero⟩
  · have hs := List.head?_eq_some_head hp.canonical.nonempty
    have ht := List.head?_eq_some_head hq.canonical.nonempty
    obtain ⟨u, hu, product, top⟩ := hp.mul?_at_end (fun _ _ _ _ => add_le_add)
      (fun _ _ _ _ ac bd => (add_eq_add_iff_eq_and_eq ac bd).1) hq h (List.mem_of_head? hs)
      (List.mem_of_head? ht) (hp.le_of_head? hs) (hq.le_of_head? ht)
    exact ⟨_, _, u, hs, ht, product, head?_of_mem hr.falling hu fun v hv => (top v hv).not_gt⟩
  · have hs := List.getLast?_eq_some_getLast hp.canonical.nonempty
    have ht := List.getLast?_eq_some_getLast hq.canonical.nonempty
    have add_eq (a b c d : DegLex (Char →₀ ℕ)) (ca : c ≤ a) (db : d ≤ b) (eq : a + b = c + d) :
        a = c ∧ b = d := ((add_eq_add_iff_eq_and_eq ca db).1 eq.symm).imp Eq.symm Eq.symm
    obtain ⟨u, hu, product, bottom⟩ := hp.mul?_at_end (R := (· ≥ ·)) (fun _ _ _ _ => add_le_add)
      add_eq hq h (List.mem_of_getLast? hs) (List.mem_of_getLast? ht) (hp.ge_of_getLast? hs)
      (hq.ge_of_getLast? ht)
    exact ⟨_, _, u, hs, ht, product,
      getLast?_of_mem hr.falling hu fun v hv => (bottom v hv).not_gt⟩

/-- In `(a + b)(a - b)` the terms in the middle cancel, and the ends are `a * a` and `b * -b`. -/
theorem ends_of_mul?_cancelling :
    ∃ r, mul? ⟨[⟨1, ⟨[('a', 1)]⟩⟩, ⟨1, ⟨[('b', 1)]⟩⟩]⟩ ⟨[⟨1, ⟨[('a', 1)]⟩⟩, ⟨-1, ⟨[('b', 1)]⟩⟩]⟩ =
        some r ∧
      r.terms.head? = Term.mul? ⟨1, ⟨[('a', 1)]⟩⟩ ⟨1, ⟨[('a', 1)]⟩⟩ ∧
      r.terms.getLast? = Term.mul? ⟨1, ⟨[('b', 1)]⟩⟩ ⟨-1, ⟨[('b', 1)]⟩⟩ ∧ r ≠ zero := by
  obtain ⟨r, product⟩ : ∃ r, mul? ⟨[⟨1, ⟨[('a', 1)]⟩⟩, ⟨1, ⟨[('b', 1)]⟩⟩]⟩
      ⟨[⟨1, ⟨[('a', 1)]⟩⟩, ⟨-1, ⟨[('b', 1)]⟩⟩]⟩ = some r := ⟨_, rfl⟩
  obtain ⟨⟨s, t, u, hs, ht, first, head⟩, ⟨s', t', u', hs', ht', last, getLast⟩, nonzero⟩ :=
    ends_of_mul? (by decide) (by decide) product
  cases hs
  cases ht
  cases hs'
  cases ht'
  exact ⟨r, product, head.trans first.symm, getLast.trans last.symm, nonzero⟩

end Polynomial

end

end Expansion
