import Expansion.Proofs.Evaluation
import Expansion.Proofs.RingLaws

/-!
# Evaluating respects arithmetic

**Theorem (`evaluate_commutes`).** Evaluating the sum, the difference or the opposite of polynomials
with admissible terms gives the sum, the difference or the opposite of what they are evaluated to,
and so for a product that exists: the product of what the factors are evaluated to exists, too.

Evaluating with some bindings and then taking the value under an assignment is taking the value
under the assignment that the bindings override (`value_evaluate`). So both sides have the same
values, and both are regular. The product on the right exists because no exponent grows when names
are bound.
-/

namespace Expansion

/-- The assignment of the bound values to bound names, and of those of `ρ` to all others. -/
def Bindings.override (b : Bindings) (ρ : Assignment) : Assignment := fun x => (b.get? x).getD (ρ x)

namespace Monomial

/-- What is left of a monomial, times what became a number, has the value of the monomial. -/
theorem value_unbound (b : Bindings) (ρ : Assignment) (m : Monomial) :
    m.boundFactor b * (m.unbound b).value ρ = m.value (b.override ρ) := by
  obtain ⟨powers⟩ := m
  induction powers with
  | nil => rfl
  | cons p powers ih =>
    obtain ⟨x, e⟩ := p
    have value_power : value (b.override ρ) ⟨(x, e) :: powers⟩ =
        b.override ρ x ^ e * value (b.override ρ) ⟨powers⟩ := powersValue_cons _ x e powers
    rw [value_power, ← ih, boundFactor_cons, unbound_cons, Bindings.override]
    cases b.get? x with
    | none =>
      have value_power : value ρ ⟨(x, e) :: (unbound b ⟨powers⟩).powers⟩ =
          ρ x ^ e * value ρ (unbound b ⟨powers⟩) := powersValue_cons ρ x e _
      rw [Option.isNone_none, if_pos rfl, value_power, Option.map_none, Option.getD_none, one_mul,
        Option.getD_none]
      ring
    | some n => exact mul_assoc _ _ _

theorem exponent_unbound_le (b : Bindings) (m : Monomial) (x : Char) :
    (m.unbound b).exponent x ≤ m.exponent x := by
  obtain ⟨powers⟩ := m
  induction powers with
  | nil => exact le_rfl
  | cons p powers ih =>
    obtain ⟨y, e⟩ := p
    have whole : exponent ⟨(y, e) :: powers⟩ x =
        if y = x then e + exponent ⟨powers⟩ x else exponent ⟨powers⟩ x := total_cons x y e powers
    rw [unbound_cons, whole]
    split
    · have kept : exponent ⟨(y, e) :: (unbound b ⟨powers⟩).powers⟩ x =
          if y = x then e + (unbound b ⟨powers⟩).exponent x else (unbound b ⟨powers⟩).exponent x :=
        total_cons x y e _
      rw [kept]
      split <;> omega
    · split <;> omega

theorem Admissible.unbound {m : Monomial} (h : m.Admissible) (b : Bindings) :
    (m.unbound b).Admissible := ⟨h.toValid.unbound b, h.digits.unbound b⟩

end Monomial

theorem Term.value_evaluate (b : Bindings) (ρ : Assignment) (t : Term) :
    (t.evaluate b).value ρ = t.value (b.override ρ) := by
  rw [value, evaluate, mul_assoc, Monomial.value_unbound, value]

namespace Polynomial

variable {p q r : Polynomial}

/-- Bindings override the assignment. -/
@[simp] theorem value_evaluate (b : Bindings) (ρ : Assignment) (p : Polynomial) :
    (p.evaluate b).value ρ = p.value (b.override ρ) := by
  rw [evaluate, value_reduce, List.map_map, value]
  exact congrArg List.sum (List.map_congr_left fun t _ => Term.value_evaluate b ρ t)

theorem Admissible.evaluate (hp : p.Admissible) (b : Bindings) : (p.evaluate b).Regular :=
  regular_reduce (List.forall_mem_map.2 fun t ht => (hp t ht).unbound b)

/-- No exponent grows when names are bound. -/
theorem fitsWith_evaluate (hp : p.Admissible) (b : Bindings) (h : p.FitsWith q) :
    p.FitsWith (q.evaluate b) := by
  refine fitsWith_reduce hp fun s hs => List.forall_mem_map.2 fun t ht x => ?_
  exact (Nat.add_le_add_left (Monomial.exponent_unbound_le b t.monomial x) _).trans (h s hs t ht x)

theorem evaluate_mul? (hp : p.Admissible) (hq : q.Admissible) (b : Bindings)
    (h : p.mul? q = some r) : (p.evaluate b).mul? (q.evaluate b) = some (r.evaluate b) := by
  have hp' := (hp.evaluate b).admissible
  have hq' := (hq.evaluate b).admissible
  obtain ⟨fits, regular, value⟩ := (mul?_eq_some_iff hp hq).1 h
  refine (mul?_eq_some_iff hp' hq').2 ⟨?_, regular.admissible.evaluate b, fun ρ => ?_⟩
  · exact fitsWith_evaluate hp' b (fitsWith_evaluate hq b fits.symm).symm
  · rw [value_evaluate, value_evaluate, value_evaluate, value]

/-- Evaluating polynomials commutes with adding, subtracting and negating them, and with multiplying
them where the product exists. -/
theorem evaluate_commutes (b : Bindings) (hp : p.Admissible) (hq : q.Admissible) :
    (p + q).evaluate b = p.evaluate b + q.evaluate b ∧
    (p - q).evaluate b = p.evaluate b - q.evaluate b ∧
    (-p).evaluate b = -p.evaluate b ∧
    ∀ r, p.mul? q = some r → (p.evaluate b).mul? (q.evaluate b) = some (r.evaluate b) := by
  have hp' := (hp.evaluate b).admissible
  have hq' := (hq.evaluate b).admissible
  refine ⟨?_, ?_, ?_, fun r => evaluate_mul? hp hq b⟩
  · exact ((hp.add hq).admissible.evaluate b).ext (hp'.add hq') fun ρ => by simp
  · exact ((hp.sub hq).admissible.evaluate b).ext (hp'.sub hq') fun ρ => by simp
  · exact (hp.neg.admissible.evaluate b).ext hp'.neg fun ρ => by simp

/-- In `(a + b)(a - b)` the middle terms cancel, and with `b` bound to 3 they do not stand side by
side: `(a + 3)(a - 3)`. -/
theorem evaluate_commutes_cancelling :
    mul? ⟨[⟨1, ⟨[('a', 1)]⟩⟩, ⟨1, ⟨[('b', 1)]⟩⟩]⟩ ⟨[⟨-1, ⟨[('b', 1)]⟩⟩, ⟨1, ⟨[('a', 1)]⟩⟩]⟩ =
      some ⟨[⟨1, ⟨[('a', 2)]⟩⟩, ⟨-1, ⟨[('b', 2)]⟩⟩]⟩ ∧
    mul? (evaluate ⟨[('b', 3)]⟩ ⟨[⟨1, ⟨[('a', 1)]⟩⟩, ⟨1, ⟨[('b', 1)]⟩⟩]⟩)
      (evaluate ⟨[('b', 3)]⟩ ⟨[⟨-1, ⟨[('b', 1)]⟩⟩, ⟨1, ⟨[('a', 1)]⟩⟩]⟩) =
        some (evaluate ⟨[('b', 3)]⟩ ⟨[⟨1, ⟨[('a', 2)]⟩⟩, ⟨-1, ⟨[('b', 2)]⟩⟩]⟩) := by
  have product : mul? ⟨[⟨1, ⟨[('a', 1)]⟩⟩, ⟨1, ⟨[('b', 1)]⟩⟩]⟩
      ⟨[⟨-1, ⟨[('b', 1)]⟩⟩, ⟨1, ⟨[('a', 1)]⟩⟩]⟩ =
        some ⟨[⟨1, ⟨[('a', 2)]⟩⟩, ⟨-1, ⟨[('b', 2)]⟩⟩]⟩ := by cbv
  exact ⟨product, (evaluate_commutes ⟨[('b', 3)]⟩ (by decide) (by decide)).2.2.2 _ product⟩

end Polynomial

end Expansion
