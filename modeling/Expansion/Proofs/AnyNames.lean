import Mathlib
import Expansion.Proofs.Specialization

/-!
# Reducing and evaluating with any names

The canonical form of a polynomial is unique over digit names only. With other names different
monomials may have the same weight. Terms with one monomial may then be sorted apart, and they stay
apart, because only neighbours are merged. Two things hold with any names.

**Theorem (`reduce_keeps_coefficients`).** Reduction keeps the coefficient of every monomial, and
leaves no zero but that of the polynomial 0.

**Theorem (`evaluate_eliminates`).** Evaluating a polynomial keeps its value under every assignment
that agrees with the bindings. No bound name is left in the result, and if all names are bound, the
result is a single constant term with the value of the polynomial.

The last part follows the merging of neighbours: constant terms have the same monomial, so each of
them is merged with the sum of those before it, also where that sum is 0.
-/

namespace Expansion

/-! ## Reducing -/

namespace Polynomial

open Term

theorem ofNonzero_ne_nil (ts : List Term) : (ofNonzero ts).terms ≠ [] := by
  cases ts <;> exact List.cons_ne_nil _ _

theorem ofNonzero_of_isZero {ts : List Term} (nonzero : ∀ t ∈ ts, t.isZero = false) {t : Term}
    (mem : t ∈ (ofNonzero ts).terms) (zero : t.isZero = true) : (ofNonzero ts).terms = [.zero] := by
  cases ts with
  | nil => rfl
  | cons u us => exact absurd zero (Bool.eq_false_iff.1 (nonzero t mem))

/-- Reduction keeps the coefficient of every monomial, the empty product included. The result has
terms, and none of them is zero unless it is the zero constant alone. -/
theorem reduce_keeps_coefficients (ts : List Term) :
    (∀ m, coefficient m (reduce ts).terms = coefficient m ts) ∧
    (reduce ts).terms ≠ [] ∧
    ∀ t ∈ (reduce ts).terms, t.isZero = true → (reduce ts).terms = [.zero] := by
  refine ⟨fun m => coefficient_reduce m ts, ofNonzero_ne_nil _, fun t mem zero => ?_⟩
  refine ofNonzero_of_isZero (fun u hu => ?_) mem zero
  exact (Bool.not_eq_true' _).mp (List.mem_filter.1 hu).2

/-- The letter `ɾ` takes the weight 17 back to 17, so `α` and `ɾα` weigh the same. The term in `ɾα`
stands between the two in `α`. -/
example : reduce [⟨1, ⟨[('α', 1)]⟩⟩, ⟨1, ⟨[('ɾ', 1), ('α', 1)]⟩⟩, ⟨1, ⟨[('α', 1)]⟩⟩] =
    ⟨[⟨1, ⟨[('α', 1)]⟩⟩, ⟨1, ⟨[('ɾ', 1), ('α', 1)]⟩⟩, ⟨1, ⟨[('α', 1)]⟩⟩]⟩ := by cbv

end Polynomial

/-! ## Reducing constant terms -/

/-- The sum of two constant terms is the constant term of their sum. -/
theorem Term.merge?_constant (n k : Int) :
    (constant n).merge? (constant k) = some (constant (n + k)) := by
  show some (if n + k = 0 then zero else constant (n + k)) = _
  split
  · next cancel => rw [cancel, zero]
  · rfl

theorem Term.eq_constant {t : Term} (h : t.monomial = .one) : t = constant t.factor := by
  rw [constant, ← h]

namespace Polynomial

theorem mergeRun_constants (n : Int) {ts : List Term} (h : ∀ t ∈ ts, t.monomial = .one) :
    mergeRun (.constant n) ts = [.constant (n + (ts.map (·.factor)).sum)] := by
  induction ts generalizing n with
  | nil => simp [mergeRun]
  | cons t ts ih =>
    obtain ⟨one, h⟩ := List.forall_mem_cons.1 h
    rw [Term.eq_constant one, mergeRun, Term.merge?_constant, List.map_cons, List.sum_cons,
      ← add_assoc]
    exact ih _ h

/-- Terms without names are reduced to a single constant term. -/
theorem exists_reduce_constants {ts : List Term} (h : ∀ t ∈ ts, t.monomial = .one) :
    ∃ n, reduce ts = ⟨[.constant n]⟩ := by
  have sorted : ∀ t ∈ Term.descending ts, t.monomial = .one :=
    fun t ht => h t ((Term.descending_perm ts).subset ht)
  rw [reduce]
  cases hs : Term.descending ts with
  | nil => exact ⟨0, rfl⟩
  | cons t us =>
    rw [hs] at sorted
    obtain ⟨one, others⟩ := List.forall_mem_cons.1 sorted
    rw [Term.eq_constant one, mergeNeighbours, mergeRun_constants _ others]
    generalize t.factor + _ = n
    by_cases zero : n = 0
    · exact ⟨0, by rw [zero]; rfl⟩
    · have nonzero : (Term.constant n).isZero = false := beq_eq_false_iff_ne.2 zero
      exact ⟨n, by rw [List.filter_cons_of_pos (by rw [nonzero]; rfl)]; rfl⟩

end Polynomial

/-! ## Evaluating -/

/-- Bound names have the values that they are bound to. -/
def Bindings.AgreesWith (b : Bindings) (ρ : Assignment) : Prop := ∀ x n, b.get? x = some n → ρ x = n

theorem Bindings.AgreesWith.override_eq {b : Bindings} {ρ : Assignment} (h : b.AgreesWith ρ) :
    b.override ρ = ρ := by
  funext x
  rw [override]
  cases bound : b.get? x with
  | none => rfl
  | some n => exact (h x n bound).symm

namespace Monomial

theorem namesIn_unbound (b : Bindings) (m : Monomial) :
    (m.unbound b).NamesIn fun x => b.get? x = none :=
  fun _ hp => Option.isNone_iff_eq_none.1 (List.mem_filter.1 hp).2

/-- Nothing is left of a monomial if all its names are bound. -/
theorem unbound_eq_one {b : Bindings} {m : Monomial} (h : m.NamesIn fun x => b.get? x ≠ none) :
    m.unbound b = one := by
  refine congrArg Monomial.mk (List.filter_eq_nil_iff.2 fun p hp unbound => ?_)
  exact h p hp (Option.isNone_iff_eq_none.1 unbound)

end Monomial

namespace Polynomial

theorem namesIn_evaluate (b : Bindings) (p : Polynomial) :
    ∀ t ∈ (p.evaluate b).terms, t.monomial.NamesIn fun x => b.get? x = none :=
  forall_monomial_reduce (Monomial.namesIn_one _)
    (List.forall_mem_map.2 fun t _ => t.monomial.namesIn_unbound b)

/-- Evaluating keeps the value under assignments that agree with the bindings, and eliminates the
bound names. If no other name occurs, what is left is the value. -/
theorem evaluate_eliminates (p : Polynomial) {b : Bindings} {ρ : Assignment}
    (agrees : b.AgreesWith ρ) :
    (p.evaluate b).value ρ = p.value ρ ∧
    (∀ t ∈ (p.evaluate b).terms, t.monomial.NamesIn fun x => b.get? x = none) ∧
    ((∀ t ∈ p.terms, t.monomial.NamesIn fun x => b.get? x ≠ none) →
      p.evaluate b = ⟨[.constant (p.value ρ)]⟩) := by
  have value : (p.evaluate b).value ρ = p.value ρ := by rw [value_evaluate, agrees.override_eq]
  refine ⟨value, namesIn_evaluate b p, fun bound => ?_⟩
  have constants : ∀ t ∈ p.terms.map (·.evaluate b), t.monomial = .one :=
    List.forall_mem_map.2 fun t ht => Monomial.unbound_eq_one (bound t ht)
  obtain ⟨n, eq⟩ := exists_reduce_constants constants
  have result : p.evaluate b = ⟨[.constant n]⟩ := eq
  rw [result] at value ⊢
  rw [← value, Polynomial.value]
  simp [Term.value, Term.constant]

/-- In `2α - ɾα - 2α + 5ɾ` two terms in `α` are kept apart by one of the same weight. -/
theorem evaluate_eliminates_colliding :
    Bindings.AgreesWith ⟨[('ɾ', -1), ('α', 3)]⟩ (fun x => if x = 'α' then 3 else -1) ∧
    evaluate ⟨[('ɾ', -1), ('α', 3)]⟩
      ⟨[⟨2, ⟨[('α', 1)]⟩⟩, ⟨-1, ⟨[('ɾ', 1), ('α', 1)]⟩⟩, ⟨-2, ⟨[('α', 1)]⟩⟩, ⟨5, ⟨[('ɾ', 1)]⟩⟩]⟩ =
        ⟨[.constant (-2)]⟩ := by
  have agrees :
      Bindings.AgreesWith ⟨[('ɾ', -1), ('α', 3)]⟩ (fun x => if x = 'α' then 3 else -1) := by
    intro x n bound
    rw [Bindings.get?, Bindings.lookup_cons_eq_ite, Bindings.lookup_cons_eq_ite] at bound
    split at bound
    · next eq => rw [eq, ← Option.some.inj bound]; rfl
    · split at bound
      · next eq => rw [eq, ← Option.some.inj bound]; rfl
      · cases bound
  exact ⟨agrees, (evaluate_eliminates _ agrees).2.2 (by decide)⟩

end Polynomial

end Expansion
