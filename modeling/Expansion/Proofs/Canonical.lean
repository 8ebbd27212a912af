import Expansion.Proofs.Reduction

/-!
# Canonical form

A polynomial is *canonical* if its terms descend, no two of them have the same monomial, a constant
term comes last, and no term is zero unless the polynomial is 0.

**Theorem (`reduce_canonical_and_eq_iff`).** Over digit names, reduction makes every list of terms
canonical, and it makes two lists equal exactly if each monomial has the same coefficient in both.

The first half follows the merging of neighbours from left to right. Terms with the same monomial
stand together after sorting, but a run of them may be cut in two: where its factors cancel midway,
the merged term is the constant term 0, and the rest of the run is merged on its own. The invariant
allows for that: the term being merged is 0, or it is not below any term after it.

For the second half, the terms of a canonical polynomial other than 0 are the monomials whose
coefficient is not zero, and their order leaves no choice.
-/

namespace Expansion

namespace Polynomial

open Term

/-- The form that reduction aims at. -/
structure Canonical (p : Polynomial) : Prop where
  descending : p.terms.Pairwise fun s t => s.compare t = .gt
  distinct : p.terms.Pairwise fun s t => s.monomial ≠ t.monomial
  constantLast : ∀ t ∈ p.terms.dropLast, t.isConstant = false
  nonempty : p.terms ≠ []
  nonzero : p.terms ≠ [.zero] → ∀ t ∈ p.terms, t.isZero = false

instance (p : Polynomial) : Decidable p.Canonical :=
  decidable_of_iff
    (p.terms.Pairwise (fun s t => s.compare t = .gt) ∧
      p.terms.Pairwise (fun s t => s.monomial ≠ t.monomial) ∧
      (∀ t ∈ p.terms.dropLast, t.isConstant = false) ∧ p.terms ≠ [] ∧
      (p.terms ≠ [.zero] → ∀ t ∈ p.terms, t.isZero = false))
    ⟨fun ⟨descending, distinct, constantLast, nonempty, nonzero⟩ =>
        ⟨descending, distinct, constantLast, nonempty, nonzero⟩,
      fun h => ⟨h.descending, h.distinct, h.constantLast, h.nonempty, h.nonzero⟩⟩

/-! ## Merging sorted terms -/

/-- The term `s` may be merged with the terms `ts` after it. -/
def MayLead (s : Term) (ts : List Term) : Prop :=
  s = .zero ∨ ∀ t ∈ ts, t.monomial.key ≤ s.monomial.key

theorem mayLead_merge? {s t u : Term} {ts : List Term} (h : s.merge? t = some u)
    (below : ∀ t' ∈ ts, t'.monomial.key ≤ t.monomial.key) : MayLead u ts := by
  obtain ⟨same, rfl⟩ := merge?_eq_some h
  split
  · exact .inl rfl
  · exact .inr fun t' ht' => same ▸ below t' ht'

theorem pairwise_mergeRun {S : Set Monomial} (differ : Monomial.WeightsDiffer S)
    (one : .one ∈ S) {s : Term} {ts : List Term} (lead : MayLead s ts)
    (sorted : ts.Pairwise fun s t => t.monomial.key ≤ s.monomial.key)
    (mem : ∀ t ∈ s :: ts, t.monomial ∈ S) :
    ((mergeRun s ts).filter (!·.isZero)).Pairwise fun s t => t.monomial.key < s.monomial.key := by
  induction ts generalizing s with
  | nil => exact (List.pairwise_singleton _ _).filter _
  | cons t ts ih =>
    obtain ⟨below, sorted⟩ := List.pairwise_cons.1 sorted
    obtain ⟨hs, ht, hts⟩ := (List.forall_mem_cons.1 mem).imp_right List.forall_mem_cons.1
    rw [mergeRun]
    split
    · next u h =>
      -- The two terms are merged, and their sum goes on.
      refine ih (mayLead_merge? h below) sorted (List.forall_mem_cons.2 ⟨?_, hts⟩)
      obtain ⟨-, rfl⟩ := merge?_eq_some h
      split
      · exact one
      · exact hs
    · next h =>
      -- They are not: the first term is kept, unless it is zero.
      have rest := ih (.inr below) sorted (List.forall_mem_cons.2 ⟨ht, hts⟩)
      by_cases zero : s.isZero = true
      · rwa [List.filter_cons_of_neg (by simp [zero])]
      rw [List.filter_cons_of_pos (by simp [zero])]
      refine List.pairwise_cons.2 ⟨?_, rest⟩
      intro r hr
      rw [List.mem_filter, Bool.not_eq_true', ← Bool.not_eq_true, isZero_iff] at hr
      obtain ⟨t', mem, eq, -⟩ := exists_monomial_of_mem_mergeRun hr.1 hr.2
      -- What is kept of the others has a monomial of theirs, and these are all below.
      have le : t.monomial.key ≤ s.monomial.key := by
        rcases lead with rfl | le
        · exact absurd rfl zero
        · exact le t List.mem_cons_self
      have lt : t.monomial.key < s.monomial.key :=
        lt_of_le_of_ne le fun keys => merge?_eq_none h (differ.eq_of_key hs ht keys.symm)
      rw [eq]
      rcases List.mem_cons.1 mem with rfl | mem
      · exact lt
      · exact (below t' mem).trans_lt lt

/-! ## The result is canonical -/

@[simp] theorem canonical_zero : Canonical zero where
  descending := List.pairwise_singleton _ _
  distinct := List.pairwise_singleton _ _
  constantLast := fun _ ht => nomatch ht
  nonempty := List.cons_ne_nil _ _
  nonzero := fun ne => absurd rfl ne

/-- Terms that are not zero and whose keys fall make a canonical polynomial. -/
theorem canonical_ofNonzero {ts : List Term} (nonzero : ∀ t ∈ ts, t.isZero = false)
    (falling : ts.Pairwise fun s t => t.monomial.key < s.monomial.key) :
    (ofNonzero ts).Canonical := by
  match ts with
  | [] => exact canonical_zero
  | t :: ts =>
    refine ⟨?_, ?_, ?_, List.cons_ne_nil _ _, fun _ => nonzero⟩
    · exact falling.imp fun lt => compare_eq_gt_iff.2 (.inl lt)
    · exact falling.imp fun lt eq => lt.ne' (congrArg Monomial.key eq)
    · -- A term before the last one ranks above it, and nothing ranks below a constant term.
      intro u hu
      rw [← List.dropLast_append_getLast (List.cons_ne_nil t ts), List.pairwise_append] at falling
      have lt := falling.2.2 u hu _ List.mem_cons_self
      rw [← Bool.not_eq_true]
      intro one
      rw [Monomial.isOne_iff.1 one] at lt
      exact (Monomial.key_one_le _).not_gt lt

/-- Where different monomials have different weights, reduction makes lists of terms canonical. -/
theorem canonical_reduce_of_differ {S : Set Monomial} (differ : Monomial.WeightsDiffer S)
    {ts : List Term} (h : ∀ t ∈ ts, t.monomial ∈ S) : (reduce ts).Canonical := by
  apply canonical_ofNonzero (fun t ht => by simpa using (List.mem_filter.1 ht).2)
  have sorted := descending_pairwise_key ts
  have mem : ∀ t ∈ Term.descending ts, t.monomial ∈ insert .one S :=
    fun t ht => .inr (h t ((descending_perm ts).subset ht))
  match hs : Term.descending ts with
  | [] => exact .nil
  | s :: ss =>
    rw [hs] at sorted mem
    obtain ⟨below, sorted⟩ := List.pairwise_cons.1 sorted
    exact pairwise_mergeRun differ.insert_one (.inl rfl) (.inr below) sorted mem

theorem canonical_reduce {ts : List Term} (h : ∀ t ∈ ts, t.monomial.Weighable) :
    (reduce ts).Canonical :=
  canonical_reduce_of_differ Monomial.weightsDiffer_weighable h

/-! ## Canonical polynomials with the same coefficients -/

theorem coefficient_of_mem {ts : List Term}
    (distinct : ts.Pairwise fun s t => s.monomial ≠ t.monomial) {t : Term} (ht : t ∈ ts) :
    coefficient t.monomial ts = t.factor := by
  induction ts with
  | nil => cases ht
  | cons s ts ih =>
    obtain ⟨apart, distinct⟩ := List.pairwise_cons.1 distinct
    rw [coefficient]
    rcases List.mem_cons.1 ht with rfl | mem
    · have others : ts.filter (·.monomial = t.monomial) = [] :=
        List.filter_eq_nil_iff.2 fun s hs => by simpa using (apart s hs).symm
      simp [others]
    · rw [List.filter_cons_of_neg (by simpa using apart t mem)]
      exact ih distinct mem

theorem exists_mem_of_coefficient {m : Monomial} {ts : List Term} (h : coefficient m ts ≠ 0) :
    ∃ t ∈ ts, t.monomial = m := by
  by_contra none
  have others : ts.filter (·.monomial = m) = [] :=
    List.filter_eq_nil_iff.2 fun t ht => by simpa using fun eq => none ⟨t, ht, eq⟩
  exact h (by simp [coefficient, others])

/-- The terms of a canonical polynomial that are not zero are its coefficients. -/
theorem Canonical.mem_iff {p : Polynomial} (hp : p.Canonical) {t : Term} (nonzero : t.factor ≠ 0) :
    t ∈ p.terms ↔ coefficient t.monomial p.terms = t.factor := by
  constructor
  · exact coefficient_of_mem hp.distinct
  · intro eq
    obtain ⟨s, hs, same⟩ := exists_mem_of_coefficient (eq ▸ nonzero)
    have factors := coefficient_of_mem hp.distinct hs
    rw [same, eq] at factors
    obtain ⟨a, m⟩ := s
    obtain ⟨b, n⟩ := t
    obtain rfl : b = a := factors
    obtain rfl : m = n := same
    exact hs

theorem Canonical.ofNonzero_filter {p : Polynomial} (hp : p.Canonical) :
    ofNonzero (p.terms.filter (!·.isZero)) = p := by
  obtain ⟨ts⟩ := p
  by_cases zero : ts = [.zero]
  · rw [zero]
    rfl
  · rw [List.filter_eq_self.2 fun t ht => by simp [hp.nonzero zero t ht]]
    cases ts with
    | nil => exact absurd rfl hp.nonempty
    | cons t ts => rfl

/-- Canonical polynomials with the same coefficients are equal. -/
theorem Canonical.ext {p q : Polynomial} (hp : p.Canonical) (hq : q.Canonical)
    (h : ∀ m, coefficient m p.terms = coefficient m q.terms) : p = q := by
  have : Std.Antisymm fun s t : Term => s.compare t = .gt :=
    ⟨fun _ _ gt gt' => absurd gt' (compare_gt_asymm gt)⟩
  have : Std.Irrefl fun s t : Term => s.compare t = .gt := ⟨fun _ gt => compare_gt_asymm gt gt⟩
  rw [← hp.ofNonzero_filter, ← hq.ofNonzero_filter]
  congr 1
  apply (hp.descending.filter _).eq_of_mem_iff (hq.descending.filter _)
  intro t
  rw [List.mem_filter, List.mem_filter]
  apply and_congr_left
  intro nonzero
  rw [Bool.not_eq_true', ← Bool.not_eq_true, isZero_iff] at nonzero
  rw [hp.mem_iff nonzero, hq.mem_iff nonzero, h]

/-- Reduction makes lists of terms equal exactly if their coefficients are. -/
theorem reduce_eq_reduce_iff {ts us : List Term} (hts : ∀ t ∈ ts, t.monomial.Weighable)
    (hus : ∀ t ∈ us, t.monomial.Weighable) :
    reduce ts = reduce us ↔ ∀ m, coefficient m ts = coefficient m us := by
  constructor
  · intro eq m
    rw [← coefficient_reduce m ts, eq, coefficient_reduce]
  · intro same
    apply (canonical_reduce hts).ext (canonical_reduce hus)
    intro m
    rw [coefficient_reduce, coefficient_reduce, same]

/-- Reduction leaves canonical polynomials as they are. -/
theorem Canonical.reduced_eq {p : Polynomial} (hp : p.Canonical)
    (h : ∀ t ∈ p.terms, t.monomial.Weighable) : p.reduced = p :=
  (canonical_reduce h).ext hp fun m => coefficient_reduce m p.terms

/-- The opposite of the opposite of a canonical polynomial is the polynomial. -/
theorem Canonical.neg_neg {p : Polynomial} (hp : p.Canonical)
    (h : ∀ t ∈ p.terms, t.monomial.Weighable) : -(-p) = p := by
  have once : ∀ t ∈ (-p).terms, t.monomial.Weighable :=
    forall_monomial_reduce Monomial.weighable_one (List.forall_mem_map.2 h)
  have twice : ∀ t ∈ (-p).terms.map (- ·), t.monomial.Weighable := List.forall_mem_map.2 once
  apply (canonical_reduce twice).ext hp
  intro m
  rw [coefficient_reduce, coefficient_neg, neg_def, coefficient_reduce, coefficient_neg,
    Int.neg_neg]

theorem coefficient_perm {ts us : List Term} (h : ts.Perm us) (m : Monomial) :
    coefficient m ts = coefficient m us :=
  ((h.filter _).map _).sum_eq

/-- Over digit names, reduction gives canonical polynomials, and the same one exactly for lists with
the same coefficients. So it does not matter how the terms are ordered, and reducing again changes
nothing. -/
theorem reduce_canonical_and_eq_iff {ts us : List Term} (hts : ∀ t ∈ ts, t.monomial.Weighable)
    (hus : ∀ t ∈ us, t.monomial.Weighable) :
    (reduce ts).Canonical ∧
    (reduce ts = reduce us ↔ ∀ m, coefficient m ts = coefficient m us) ∧
    (us.Perm ts → reduce us = reduce ts) ∧
    reduce (reduce ts).terms = reduce ts := by
  refine ⟨canonical_reduce hts, reduce_eq_reduce_iff hts hus, ?_, ?_⟩
  · intro perm
    exact (reduce_eq_reduce_iff hus hts).2 (coefficient_perm perm)
  · have reduced := forall_monomial_reduce Monomial.weighable_one hts
    exact (reduce_eq_reduce_iff reduced hts).2 fun m => coefficient_reduce m ts

/-- The terms in `a` cancel midway: `3a - 3a` is 0 before `-4a` is reached. -/
theorem reduce_canonical_cancelling :
    (reduce [⟨-4, ⟨[('a', 1)]⟩⟩, ⟨5, .one⟩, ⟨3, ⟨[('a', 1)]⟩⟩, ⟨-3, ⟨[('a', 1)]⟩⟩]).Canonical ∧
    reduce [⟨-4, ⟨[('a', 1)]⟩⟩, ⟨5, .one⟩, ⟨3, ⟨[('a', 1)]⟩⟩, ⟨-3, ⟨[('a', 1)]⟩⟩] =
      reduce [⟨5, .one⟩, ⟨-4, ⟨[('a', 1)]⟩⟩] := by
  have a : Monomial.Weighable ⟨[('a', 1)]⟩ :=
    ⟨⟨List.pairwise_singleton _ _, by simp⟩, by simp [Monomial.NamesIn, Monomial.IsDigitName]⟩
  have hts : ∀ t ∈ ([⟨-4, ⟨[('a', 1)]⟩⟩, ⟨5, .one⟩, ⟨3, ⟨[('a', 1)]⟩⟩, ⟨-3, ⟨[('a', 1)]⟩⟩] :
      List Term), t.monomial.Weighable := by simp [a, Monomial.weighable_one]
  have hus : ∀ t ∈ ([⟨5, .one⟩, ⟨-4, ⟨[('a', 1)]⟩⟩] : List Term), t.monomial.Weighable := by
    simp [a, Monomial.weighable_one]
  obtain ⟨canonical, iff, -⟩ := reduce_canonical_and_eq_iff hts hus
  refine ⟨canonical, iff.2 ?_⟩
  intro m
  rw [coefficient_eq_sum, coefficient_eq_sum]
  by_cases one : Monomial.one = m <;> by_cases letter : (⟨[('a', 1)]⟩ : Monomial) = m <;>
    simp [one, letter]

end Polynomial

end Expansion
