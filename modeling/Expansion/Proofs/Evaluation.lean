import Expansion.Proofs.Canonical
import Mathlib

/-!
# Evaluating in stages

**Theorem (`evaluate_union`).** Over digit names, evaluating a polynomial with some bindings and
then with others gives the same polynomial as evaluating it once with the union of the two, in which
the first bindings win.

A single term can be evaluated in stages, because the powers that the first bindings leave are those
whose names only the second ones may bind. For a polynomial the second stage runs on what the first
one was reduced to. But what a term contributes to a coefficient after evaluation is additive in its
factor, and reduction keeps sums of that kind, so the coefficients are those of a single evaluation.
-/

namespace Expansion

/-! ## The union of bindings -/

namespace Bindings

/-- All bindings of the two sets; where both bind a name, the first counts. -/
def union (b c : Bindings) : Bindings := b.entries.foldr (fun (x, n) d => d.insert x n) c

theorem get?_union (b c : Bindings) (x : Char) :
    (b.union c).get? x = (b.get? x).or (c.get? x) := by
  obtain ⟨entries⟩ := b
  induction entries with
  | nil => rfl
  | cons entry entries ih =>
    obtain ⟨y, n⟩ := entry
    show ((union ⟨entries⟩ c).insert y n).get? x = (((y, n) :: entries).lookup x).or (c.get? x)
    rw [get?_insert, ih, lookup_cons_eq_ite]
    split <;> rfl

end Bindings

/-! ## Terms -/

namespace Monomial

theorem NamesIn.unbound {P : Char → Prop} {m : Monomial} (h : m.NamesIn P) (b : Bindings) :
    (m.unbound b).NamesIn P := fun p hp => h p (List.mem_of_mem_filter hp)

theorem Normal.unbound {m : Monomial} (h : m.Normal) (b : Bindings) : (m.unbound b).Normal where
  sorted := h.sorted.filter _
  positive := fun p hp => h.positive p (List.mem_of_mem_filter hp)

theorem Valid.unbound {m : Monomial} (h : m.Valid) (b : Bindings) : (m.unbound b).Valid where
  toNormal := h.toNormal.unbound b
  fits := List.all_eq_true.2 fun p hp => List.all_eq_true.1 h.fits p (List.mem_of_mem_filter hp)

theorem Weighable.unbound {m : Monomial} (h : m.Weighable) (b : Bindings) :
    (m.unbound b).Weighable := ⟨h.normal.unbound b, h.digits.unbound b⟩

theorem unbound_unbound (b c : Bindings) (m : Monomial) :
    (m.unbound b).unbound c = m.unbound (b.union c) := by
  simp only [unbound, List.filter_filter, Bindings.get?_union, Option.isNone_or, Bool.and_comm]

theorem boundFactor_cons (b : Bindings) (x : Char) (e : Nat) (ps : List (Char × Nat)) :
    boundFactor b ⟨(x, e) :: ps⟩ = ((b.get? x).map (Int.pow · e)).getD 1 * boundFactor b ⟨ps⟩ :=
  rfl

theorem unbound_cons (b : Bindings) (x : Char) (e : Nat) (ps : List (Char × Nat)) :
    unbound b ⟨(x, e) :: ps⟩ =
      if (b.get? x).isNone then ⟨(x, e) :: (unbound b ⟨ps⟩).powers⟩ else unbound b ⟨ps⟩ := by
  show Monomial.mk (List.filter _ ((x, e) :: ps)) = _
  by_cases h : (b.get? x).isNone = true <;> simp [unbound, h]

/-- The numbers that the two stages contribute are multiplied. -/
theorem boundFactor_union (b c : Bindings) (m : Monomial) :
    m.boundFactor (b.union c) = m.boundFactor b * (m.unbound b).boundFactor c := by
  obtain ⟨powers⟩ := m
  induction powers with
  | nil => rfl
  | cons p powers ih =>
    obtain ⟨x, e⟩ := p
    rw [boundFactor_cons, boundFactor_cons, unbound_cons, ih, Bindings.get?_union]
    cases b.get? x with
    | none =>
      rw [Option.isNone_none, if_pos rfl, boundFactor_cons, Option.none_or, Option.map_none,
        Option.getD_none]
      ring
    | some n =>
      rw [Option.isNone_some, if_neg Bool.false_ne_true, Option.some_or]
      ring

end Monomial

namespace Term

/-- A term can be evaluated in stages. -/
theorem evaluate_evaluate (b c : Bindings) (t : Term) :
    (t.evaluate b).evaluate c = t.evaluate (b.union c) := by
  simp only [evaluate, Monomial.unbound_unbound, Monomial.boundFactor_union, mul_assoc]

theorem AdditiveInFactor.evaluate {A : Type*} [Add A] {f : Term → A} (hf : AdditiveInFactor f)
    (b : Bindings) : AdditiveInFactor fun t => f (t.evaluate b) := by
  intro n k m
  show f ⟨(n + k) * m.boundFactor b, m.unbound b⟩ = _
  rw [add_mul, hf]
  rfl

end Term

/-! ## Polynomials -/

namespace Polynomial

open Term

/-- Reducing before an evaluation does not change the coefficients after it. -/
theorem coefficient_evaluate_reduce (b : Bindings) (m : Monomial) (ts : List Term) :
    coefficient m ((reduce ts).terms.map (·.evaluate b)) =
      coefficient m (ts.map (·.evaluate b)) := by
  rw [coefficient_eq_sum, coefficient_eq_sum, List.map_map, List.map_map]
  exact sum_reduce ((additiveInFactor_coefficient m).evaluate b) ts

theorem weighable_evaluate {ts : List Term} (h : ∀ t ∈ ts, t.monomial.Weighable) (b : Bindings) :
    ∀ t ∈ ts.map (·.evaluate b), t.monomial.Weighable :=
  List.forall_mem_map.2 fun t ht => (h t ht).unbound b

/-- Evaluating once with the union of two sets of bindings is evaluating with one after the other. -/
theorem evaluate_union (b c : Bindings) {p : Polynomial}
    (h : ∀ t ∈ p.terms, t.monomial.Weighable) :
    (p.evaluate b).evaluate c = p.evaluate (b.union c) := by
  have first := forall_monomial_reduce Monomial.weighable_one (weighable_evaluate h b)
  have stages : (p.terms.map (·.evaluate b)).map (·.evaluate c) =
      p.terms.map (·.evaluate (b.union c)) := by
    rw [List.map_map]
    exact List.map_congr_left fun t _ => Term.evaluate_evaluate b c t
  refine (reduce_eq_reduce_iff (weighable_evaluate first c) (weighable_evaluate h _)).2 ?_
  intro m
  exact (coefficient_evaluate_reduce c m _).trans (congrArg (coefficient m) stages)

/-- In `3ab - 6ac + bd` the terms with `a` cancel in the first stage, and the second binds `b` in
vain. -/
theorem evaluate_union_cancelling :
    (Polynomial.evaluate ⟨[('b', 2), ('c', 1)]⟩
      ⟨[⟨3, ⟨[('a', 1), ('b', 1)]⟩⟩, ⟨-6, ⟨[('a', 1), ('c', 1)]⟩⟩,
        ⟨1, ⟨[('b', 1), ('d', 1)]⟩⟩]⟩).evaluate ⟨[('a', 5), ('b', 7)]⟩ =
      ⟨[⟨2, ⟨[('d', 1)]⟩⟩]⟩ := by
  have weighable : ∀ t ∈ ([⟨3, ⟨[('a', 1), ('b', 1)]⟩⟩, ⟨-6, ⟨[('a', 1), ('c', 1)]⟩⟩,
      ⟨1, ⟨[('b', 1), ('d', 1)]⟩⟩] : List Term), t.monomial.Weighable := by decide
  rw [evaluate_union _ _ weighable]
  cbv

end Polynomial

end Expansion
