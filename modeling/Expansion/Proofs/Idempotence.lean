import Mathlib
import Expansion.Proofs.Canonical

/-!
# Reducing again

**Theorem (`reduce_idempotent_iff`).** Over a set of monomials, these three are the same: reducing a
reduced list of terms never changes it; no two terms of a reduced list have the same monomial;
different monomials of the set have different weights.

Digit names are enough for the last one (`weightsDiffer_weighable`), but not all names are. Terms
are sorted before neighbours are merged. Where different monomials have one weight `w`, their terms
are sorted by factors, so that terms with one monomial can be kept apart by a term with another. And
merging raises a factor above those in front of it, so that the result is not sorted any more.
-/

namespace Expansion

namespace Term

theorem isLE_compare_of_key {s t : Term} (key : t.monomial.key = s.monomial.key)
    (le : t.factor ≤ s.factor) : (t.compare s).isLE = true := by
  rw [Ordering.isLE_iff_ne_gt]
  intro above
  rw [compare_eq_gt_iff, key] at above
  obtain lt | ⟨-, lt⟩ := above
  · exact lt_irrefl _ lt
  · omega

/-- Sorting leaves sorted terms as they are. -/
theorem descending_of_pairwise {ts : List Term}
    (sorted : ts.Pairwise fun s t => (t.compare s).isLE = true) : descending ts = ts := by
  have ranked : (ts.map fun t => (t.rank, t)).Pairwise fun a b => (b.1.compare a.1).isLE = true :=
    List.pairwise_map.2 sorted
  rw [descending, List.mergeSort_of_pairwise ranked, List.map_map]
  exact List.map_id ts

end Term

namespace Polynomial

open Term Monomial

/-! ## Different weights -/

/-- Where different monomials have different weights, reducing again changes nothing. -/
theorem reduce_reduce_of_differ {S : Set Monomial} (differ : WeightsDiffer S) {ts : List Term}
    (h : ∀ t ∈ ts, t.monomial ∈ S) : reduce (reduce ts).terms = reduce ts := by
  have reduced : ∀ t ∈ (reduce ts).terms, t.monomial ∈ insert .one S :=
    forall_monomial_reduce (.inl rfl) fun t ht => .inr (h t ht)
  apply (canonical_reduce_of_differ differ.insert_one reduced).ext
    (canonical_reduce_of_differ differ h)
  exact fun m => coefficient_reduce m _

/-! ## The same weight -/

theorem mergeRun_of_isChain {s : Term} {ts : List Term}
    (chain : (s :: ts).IsChain fun s t => s.monomial ≠ t.monomial) : mergeRun s ts = s :: ts := by
  induction ts generalizing s with
  | nil => rfl
  | cons t ts ih =>
    obtain ⟨apart, chain⟩ := List.isChain_cons_cons.1 chain
    rw [mergeRun]
    split
    · next u h => exact absurd (merge?_eq_some h).1 apart
    · rw [ih chain]

/-- Where no neighbours have the same monomial after sorting, nothing is merged. -/
theorem terms_reduce_of_isChain {ts : List Term}
    (chain : (descending ts).IsChain fun s t => s.monomial ≠ t.monomial)
    (nonzero : ∀ t ∈ ts, t.factor ≠ 0) (ne : ts ≠ []) : (reduce ts).terms = descending ts := by
  have perm := descending_perm ts
  have kept : (mergeNeighbours (descending ts)).filter (!·.isZero) = descending ts := by
    have merged : mergeNeighbours (descending ts) = descending ts := by
      cases eq : descending ts with
      | nil => rfl
      | cons s ss => exact mergeRun_of_isChain (eq ▸ chain)
    rw [merged, List.filter_eq_self]
    intro t ht
    simp [Term.isZero, nonzero t (perm.subset ht)]
  rw [reduce, kept]
  cases eq : descending ts with
  | nil => exact absurd (List.nil_perm.1 (eq ▸ perm)) ne
  | cons s ss => rfl

section

variable {m n : Monomial}

/-- A term between two others with one monomial keeps these apart. -/
theorem terms_reduce_between (ne : m ≠ n) (key : m.key = n.key) :
    (reduce [⟨3, m⟩, ⟨2, n⟩, ⟨1, m⟩]).terms = [⟨3, m⟩, ⟨2, n⟩, ⟨1, m⟩] := by
  have sorted : descending [⟨3, m⟩, ⟨2, n⟩, ⟨1, m⟩] = [⟨3, m⟩, ⟨2, n⟩, ⟨1, m⟩] := by
    apply descending_of_pairwise
    simp [isLE_compare_of_key, key]
  rw [terms_reduce_of_isChain _ (by simp) (List.cons_ne_nil _ _), sorted]
  rw [sorted]
  simp [ne, ne.symm]

/-- A merged term can have a larger factor than the term in front of it. -/
theorem reduce_behind (ne : m ≠ n) (key : m.key = n.key) :
    reduce [⟨3, n⟩, ⟨2, m⟩, ⟨2, m⟩] = ⟨[⟨3, n⟩, ⟨4, m⟩]⟩ := by
  have sorted : descending [⟨3, n⟩, ⟨2, m⟩, ⟨2, m⟩] = [⟨3, n⟩, ⟨2, m⟩, ⟨2, m⟩] := by
    apply descending_of_pairwise
    simp [isLE_compare_of_key, key]
  have merged : mergeNeighbours [⟨3, n⟩, ⟨2, m⟩, ⟨2, m⟩] = [⟨3, n⟩, ⟨4, m⟩] := by
    simp [mergeNeighbours, mergeRun, merge?, sameNames, ne.symm]
  rw [reduce, sorted, merged]
  rfl

/-- Sorting puts the larger factor in front. -/
theorem reduce_ne_of_lt (ne : m ≠ n) (key : m.key = n.key) :
    reduce [⟨3, n⟩, ⟨4, m⟩] ≠ ⟨[⟨3, n⟩, ⟨4, m⟩]⟩ := by
  intro same
  have perm := descending_perm [⟨3, n⟩, ⟨4, m⟩]
  have distinct : (descending [⟨3, n⟩, ⟨4, m⟩]).Pairwise fun s t => s.monomial ≠ t.monomial := by
    refine (perm.pairwise_iff fun h => h.symm).2 ?_
    simp [ne.symm]
  have sorted := descending_pairwise_compare [⟨3, n⟩, ⟨4, m⟩]
  rw [← terms_reduce_of_isChain distinct.isChain (by simp) (List.cons_ne_nil _ _), same] at sorted
  have le := List.rel_of_pairwise_cons sorted List.mem_cons_self
  have smaller : (3 : Int) < 4 := by decide
  rw [compare_eq_gt_iff.2 (.inr ⟨key.symm, smaller⟩)] at le
  cases le

end

/-- Over a set of monomials, reducing again changes nothing exactly if different monomials have
different weights. The same holds for reduced lists in which no two terms have the same monomial. -/
theorem reduce_idempotent_iff (S : Set Monomial) :
    ((∀ ts : List Term, (∀ t ∈ ts, t.monomial ∈ S) → reduce (reduce ts).terms = reduce ts) ↔
      WeightsDiffer S) ∧
    ((∀ ts : List Term, (∀ t ∈ ts, t.monomial ∈ S) →
        (reduce ts).terms.Pairwise fun s t => s.monomial ≠ t.monomial) ↔
      WeightsDiffer S) := by
  refine ⟨⟨fun idempotent => ?_, fun differ ts h => reduce_reduce_of_differ differ h⟩,
    ⟨fun distinct => ?_, fun differ ts h => (canonical_reduce_of_differ differ h).distinct⟩⟩
  all_goals
    intro m hm n hn m_one n_one weights
    by_contra ne
    have key : m.key = n.key := by rw [key_of_ne_one m_one, key_of_ne_one n_one, weights]
  · have again := idempotent [⟨3, n⟩, ⟨2, m⟩, ⟨2, m⟩] (by simp [hm, hn])
    rw [reduce_behind ne key] at again
    exact reduce_ne_of_lt ne key again
  · have apart := distinct [⟨3, m⟩, ⟨2, n⟩, ⟨1, m⟩] (by simp [hm, hn])
    rw [terms_reduce_between ne key] at apart
    simp at apart

/-- The letters `A` and `a` together weigh as much as `B` twice. -/
def colliding : List Term :=
  [⟨10, ⟨[('B', 2)]⟩⟩, ⟨6, ⟨[('A', 1), ('a', 1)]⟩⟩, ⟨5, ⟨[('A', 1), ('a', 1)]⟩⟩, ⟨2, ⟨[('B', 2)]⟩⟩]

/-- The sum of the two terms in `Aa` is above the first term in `B`. Reducing leaves it between the
two terms in `B`, and reducing again merges these. -/
theorem reduce_colliding :
    (∀ t ∈ colliding, t.Valid) ∧
    (reduce colliding).terms =
      [⟨10, ⟨[('B', 2)]⟩⟩, ⟨11, ⟨[('A', 1), ('a', 1)]⟩⟩, ⟨2, ⟨[('B', 2)]⟩⟩] ∧
    ¬ ((reduce colliding).terms.Pairwise fun s t => s.monomial ≠ t.monomial) ∧
    reduce (reduce colliding).terms ≠ reduce colliding := by
  have once : (reduce colliding).terms =
      [⟨10, ⟨[('B', 2)]⟩⟩, ⟨11, ⟨[('A', 1), ('a', 1)]⟩⟩, ⟨2, ⟨[('B', 2)]⟩⟩] := by cbv
  have again : reduce [⟨10, ⟨[('B', 2)]⟩⟩, ⟨11, ⟨[('A', 1), ('a', 1)]⟩⟩, ⟨2, ⟨[('B', 2)]⟩⟩] =
      ⟨[⟨11, ⟨[('A', 1), ('a', 1)]⟩⟩, ⟨12, ⟨[('B', 2)]⟩⟩]⟩ := by cbv
  refine ⟨?_, once, ?_, ?_⟩
  · simp only [colliding, List.forall_mem_cons, Term.Valid]
    decide
  · rw [once]
    decide
  · intro same
    rw [once, again] at same
    rw [← same] at once
    simp at once

end Polynomial

end Expansion
