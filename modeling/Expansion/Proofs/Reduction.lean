import Expansion.Polynomial
import Expansion.Proofs.Order
import Mathlib.Algebra.BigOperators.Group.List.Basic
import Mathlib.Algebra.Order.Ring.Int

/-!
# What reduction keeps

Bringing terms into canonical form sorts them, adds the factors of neighbours with the same
monomial, and leaves zeros out. So every sum over the terms stays as it is, if the summand is
additive in the factor (`sum_reduce`). The value of a polynomial is such a sum, and so is the
coefficient of a monomial (`coefficient_reduce`).

No monomial is made up either: a term of the result that is not zero has the monomial of a term
that was there before (`exists_monomial_of_mem_reduce`).
-/

namespace Expansion

namespace Term

/-- Adding up factors adds up the values of `f`. -/
def AdditiveInFactor {A : Type*} [Add A] (f : Term → A) : Prop :=
  ∀ a b m, f ⟨a + b, m⟩ = f ⟨a, m⟩ + f ⟨b, m⟩

theorem merge?_eq_none {s t : Term} (h : s.merge? t = none) : s.monomial ≠ t.monomial := by
  intro eq
  simp [merge?, sameNames, eq] at h

theorem merge?_eq_some {s t u : Term} (h : s.merge? t = some u) : s.monomial = t.monomial ∧
    u = if s.factor + t.factor = 0 then zero else ⟨s.factor + t.factor, s.monomial⟩ := by
  unfold merge? at h
  split at h
  · next same => exact ⟨beq_iff_eq.1 same, (Option.some.inj h).symm⟩
  · cases h

@[simp] theorem isZero_iff {t : Term} : t.isZero = true ↔ t.factor = 0 := beq_iff_eq

/-- A merged term that is not zero has the monomial of the two, one of which is not zero. -/
theorem merge?_nonzero {s t u : Term} (h : s.merge? t = some u) (nonzero : u.factor ≠ 0) :
    u.monomial = s.monomial ∧ (s.factor ≠ 0 ∨ t.factor ≠ 0) := by
  obtain ⟨-, rfl⟩ := merge?_eq_some h
  split at nonzero
  · exact absurd rfl nonzero
  · next sum =>
    rw [if_neg sum]
    exact ⟨rfl, by omega⟩

section

variable {A : Type*} [AddCommGroup A] {f : Term → A}

theorem AdditiveInFactor.zero (hf : AdditiveInFactor f) {t : Term} (h : t.factor = 0) :
    f t = 0 := by
  obtain ⟨a, m⟩ := t
  obtain rfl : a = 0 := h
  simpa using hf 0 0 m

theorem AdditiveInFactor.merge? (hf : AdditiveInFactor f) {s t u : Term}
    (h : s.merge? t = some u) : f u = f s + f t := by
  obtain ⟨same, rfl⟩ := merge?_eq_some h
  obtain ⟨a, m⟩ := s
  obtain ⟨b, n⟩ := t
  obtain rfl : m = n := same
  rw [← hf]
  split
  · next cancel => rw [hf.zero rfl, hf.zero cancel]
  · rfl

end

end Term

namespace Polynomial

open Term

/-! ## Sums over the terms -/

section

variable {A : Type*} [AddCommGroup A] {f : Term → A}

theorem sum_mergeRun (hf : AdditiveInFactor f) (s : Term) (ts : List Term) :
    ((mergeRun s ts).map f).sum = f s + (ts.map f).sum := by
  induction ts generalizing s with
  | nil => simp [mergeRun]
  | cons t ts ih =>
    rw [mergeRun]
    split
    · next u h => rw [ih, hf.merge? h, List.map_cons, List.sum_cons, add_assoc]
    · rw [List.map_cons, List.sum_cons, ih, List.map_cons, List.sum_cons]

theorem sum_mergeNeighbours (hf : AdditiveInFactor f) (ts : List Term) :
    ((mergeNeighbours ts).map f).sum = (ts.map f).sum := by
  cases ts with
  | nil => rfl
  | cons t ts => rw [mergeNeighbours, sum_mergeRun hf, List.map_cons, List.sum_cons]

theorem sum_filter_nonzero (hf : AdditiveInFactor f) (ts : List Term) :
    ((ts.filter (!·.isZero)).map f).sum = (ts.map f).sum := by
  induction ts with
  | nil => rfl
  | cons t ts ih =>
    by_cases h : t.isZero = true
    · rw [List.filter_cons_of_neg (by simp [h]), ih, List.map_cons, List.sum_cons,
        hf.zero (isZero_iff.1 h), zero_add]
    · rw [List.filter_cons_of_pos (by simp [h]), List.map_cons, List.sum_cons, ih, List.map_cons,
        List.sum_cons]

theorem sum_ofNonzero (hf : AdditiveInFactor f) (ts : List Term) :
    ((ofNonzero ts).terms.map f).sum = (ts.map f).sum := by
  cases ts with
  | nil => simp [ofNonzero, hf.zero (t := Term.zero) rfl]
  | cons t ts => rfl

/-- Reduction keeps every sum over the terms that is additive in the factors. -/
theorem sum_reduce (hf : AdditiveInFactor f) (ts : List Term) :
    ((reduce ts).terms.map f).sum = (ts.map f).sum := by
  rw [reduce, sum_ofNonzero hf, sum_filter_nonzero hf, sum_mergeNeighbours hf]
  exact ((descending_perm ts).map f).sum_eq

end

/-! ## Coefficients -/

/-- The sum of the factors of the terms with the monomial `m`. -/
def coefficient (m : Monomial) (ts : List Term) : Int :=
  ((ts.filter (·.monomial = m)).map (·.factor)).sum

theorem coefficient_eq_sum (m : Monomial) (ts : List Term) :
    coefficient m ts = (ts.map fun t => if t.monomial = m then t.factor else 0).sum := by
  induction ts with
  | nil => rfl
  | cons t ts ih =>
    rw [List.map_cons, List.sum_cons, ← ih]
    by_cases h : t.monomial = m <;> simp [coefficient, h]

theorem additiveInFactor_coefficient (m : Monomial) :
    AdditiveInFactor fun t => if t.monomial = m then t.factor else 0 := by
  intro a b n
  by_cases h : n = m <;> simp [h]

/-- Reduction keeps the coefficient of every monomial. -/
@[simp] theorem coefficient_reduce (m : Monomial) (ts : List Term) :
    coefficient m (reduce ts).terms = coefficient m ts := by
  rw [coefficient_eq_sum, coefficient_eq_sum]
  exact sum_reduce (additiveInFactor_coefficient m) ts

theorem coefficient_neg (m : Monomial) (ts : List Term) :
    coefficient m (ts.map (- ·)) = -coefficient m ts := by
  rw [coefficient_eq_sum, coefficient_eq_sum, List.map_map, List.sum_neg, List.map_map]
  refine congrArg (fun f => (ts.map f).sum) (funext fun t => ?_)
  by_cases h : t.monomial = m <;> simp [h]

/-! ## Monomials of the result -/

theorem exists_monomial_of_mem_mergeRun {s r : Term} {ts : List Term} (hr : r ∈ mergeRun s ts)
    (nonzero : r.factor ≠ 0) : ∃ t ∈ s :: ts, r.monomial = t.monomial ∧ t.factor ≠ 0 := by
  induction ts generalizing s with
  | nil =>
    rw [mergeRun, List.mem_singleton] at hr
    exact ⟨s, List.mem_cons_self, hr ▸ rfl, hr ▸ nonzero⟩
  | cons t ts ih =>
    rw [mergeRun] at hr
    split at hr
    · next u h =>
      obtain ⟨t', mem, eq, nonzero'⟩ := ih hr
      rcases List.mem_cons.1 mem with rfl | mem
      · obtain ⟨same, hs | ht⟩ := merge?_nonzero h nonzero'
        · exact ⟨s, List.mem_cons_self, eq.trans same, hs⟩
        · have same' := same.trans (merge?_eq_some h).1
          exact ⟨t, List.mem_cons_of_mem _ List.mem_cons_self, eq.trans same', ht⟩
      · exact ⟨t', List.mem_cons_of_mem _ (List.mem_cons_of_mem _ mem), eq, nonzero'⟩
    · rcases List.mem_cons.1 hr with rfl | hr
      · exact ⟨r, List.mem_cons_self, rfl, nonzero⟩
      · obtain ⟨t', mem, rest⟩ := ih hr
        exact ⟨t', List.mem_cons_of_mem _ mem, rest⟩

/-- The term is one of the polynomial 0, or it is not zero and its monomial was there before. -/
theorem exists_monomial_of_mem_reduce {ts : List Term} {r : Term} (hr : r ∈ (reduce ts).terms) :
    r = .zero ∨ r.factor ≠ 0 ∧ ∃ t ∈ ts, r.monomial = t.monomial := by
  rw [reduce] at hr
  match h : (mergeNeighbours (descending ts)).filter (!·.isZero) with
  | [] =>
    rw [h] at hr
    exact .inl (List.mem_singleton.1 hr)
  | u :: us =>
    rw [h] at hr
    have mem : r ∈ (mergeNeighbours (descending ts)).filter (!·.isZero) := h ▸ hr
    rw [List.mem_filter, Bool.not_eq_true', ← Bool.not_eq_true, isZero_iff] at mem
    obtain ⟨mem, nonzero⟩ := mem
    match hs : descending ts with
    | [] => simp [hs, mergeNeighbours] at mem
    | v :: vs =>
      rw [hs] at mem
      obtain ⟨t, ht, eq, -⟩ := exists_monomial_of_mem_mergeRun mem nonzero
      exact .inr ⟨nonzero, t, (descending_perm ts).subset (hs ▸ ht), eq⟩

/-- What holds of 1 and of the monomials of the terms holds of the monomials of their sum. -/
theorem forall_monomial_reduce {P : Monomial → Prop} (one : P .one) {ts : List Term}
    (h : ∀ t ∈ ts, P t.monomial) : ∀ t ∈ (reduce ts).terms, P t.monomial := by
  intro r hr
  rcases exists_monomial_of_mem_reduce hr with rfl | ⟨-, t, ht, eq⟩
  · exact one
  · exact eq ▸ h t ht

end Polynomial

end Expansion
