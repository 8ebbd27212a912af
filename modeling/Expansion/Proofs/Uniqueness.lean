import Expansion.Proofs.Canonical
import Expansion.Proofs.Value
import Mathlib.Algebra.MvPolynomial.Funext
import Mathlib.Data.Int.CharZero

/-!
# Canonical polynomials are determined by their values

**Theorem (`Canonical.eq_of_forall_value`).** Two canonical polynomials whose monomials are in
normal form are equal, if they have the same value under every assignment.

A polynomial over the integers that vanishes everywhere has no coefficients. This is known for
multivariate polynomials with finitely supported exponents, so the proof reads a list of terms as
one of those: its evaluation is the value, and its coefficients are the coefficients.
-/

namespace Expansion

noncomputable section

open MvPolynomial

namespace Monomial

/-- The exponents of a monomial, which are zero for all but finitely many names. -/
def exponents (m : Monomial) : Char →₀ ℕ := (m.powers.map fun p => Finsupp.single p.1 p.2).sum

theorem exponents_apply (m : Monomial) (x : Char) : m.exponents x = m.exponent x := by
  unfold exponents exponent
  induction m.powers with
  | nil => rfl
  | cons p ps ih =>
    obtain ⟨y, d⟩ := p
    rw [List.map_cons, List.sum_cons, Finsupp.add_apply, ih, total_cons, Finsupp.single_apply]
    split <;> simp

theorem Normal.eq_of_exponents {m n : Monomial} (hm : m.Normal) (hn : n.Normal)
    (h : m.exponents = n.exponents) : m = n :=
  hm.ext hn fun x => by rw [← exponents_apply, ← exponents_apply, h]

theorem prod_exponents (ρ : Assignment) (m : Monomial) :
    (m.exponents.prod fun x e => ρ x ^ e) = m.value ρ := by
  unfold exponents value
  induction m.powers with
  | nil => rfl
  | cons p ps ih =>
    obtain ⟨x, e⟩ := p
    have single : ((Finsupp.single x e).prod fun x e => ρ x ^ e) = ρ x ^ e :=
      Finsupp.prod_single_index (pow_zero _)
    rw [List.map_cons, List.sum_cons, Finsupp.prod_add_index' (by simp) (by intros; rw [pow_add]),
      single, ih, powersValue_cons]

end Monomial

namespace Polynomial

open Term

/-- The sum of the terms, as a multivariate polynomial. -/
def denote (ts : List Term) : MvPolynomial Char ℤ :=
  (ts.map fun t => monomial t.monomial.exponents t.factor).sum

theorem eval_denote (ρ : Assignment) (ts : List Term) :
    eval ρ (denote ts) = (ts.map (Term.value ρ)).sum := by
  unfold denote
  induction ts with
  | nil => rfl
  | cons t ts ih =>
    rw [List.map_cons, List.sum_cons, map_add, ih, eval_monomial, Monomial.prod_exponents,
      List.map_cons, List.sum_cons, Term.value]

theorem coeff_denote {m : Monomial} (hm : m.Normal) {ts : List Term}
    (hts : ∀ t ∈ ts, t.monomial.Normal) :
    (denote ts).coeff m.exponents = coefficient m ts := by
  rw [coefficient_eq_sum, denote]
  induction ts with
  | nil => rfl
  | cons t ts ih =>
    obtain ⟨ht, hts⟩ := List.forall_mem_cons.1 hts
    rw [List.map_cons, List.sum_cons, coeff_add, ih hts, coeff_monomial, List.map_cons,
      List.sum_cons]
    congr 1
    exact if_congr ⟨ht.eq_of_exponents hm, fun eq => eq ▸ rfl⟩ rfl rfl

theorem coefficient_of_not_normal {m : Monomial} (hm : ¬m.Normal) {ts : List Term}
    (hts : ∀ t ∈ ts, t.monomial.Normal) : coefficient m ts = 0 := by
  by_contra h
  obtain ⟨t, ht, rfl⟩ := exists_mem_of_coefficient h
  exact hm (hts t ht)

/-- Canonical polynomials with the same values are equal. -/
theorem Canonical.eq_of_forall_value {p q : Polynomial} (hp : p.Canonical) (hq : q.Canonical)
    (p_normal : ∀ t ∈ p.terms, t.monomial.Normal) (q_normal : ∀ t ∈ q.terms, t.monomial.Normal)
    (h : ∀ ρ, p.value ρ = q.value ρ) : p = q := by
  have same : denote p.terms = denote q.terms := MvPolynomial.funext fun ρ => by
    rw [eval_denote, eval_denote]
    exact h ρ
  apply hp.ext hq
  intro m
  by_cases hm : m.Normal
  · rw [← coeff_denote hm p_normal, ← coeff_denote hm q_normal, same]
  · rw [coefficient_of_not_normal hm p_normal, coefficient_of_not_normal hm q_normal]

end Polynomial

end

end Expansion
