import Expansion.Proofs.Weight
import Mathlib.Data.Prod.Lex
import Mathlib.Order.Compare

/-!
# The order of terms as a lexicographic order

Terms compare by a *key* of their monomials first and by their factors second
(`compare_eq_gt_iff`). The key of 1 is below all others, and different monomials over digit names
have different keys (`Weighable.eq_of_key`). Sorting a list of terms permutes it, and leaves no
term in front of one that ranks above it.
-/

namespace Expansion

namespace Monomial

/-- What monomials are ordered by: 1 is lowest, and the others follow their weights. -/
def key (m : Monomial) : Bool ×ₗ ℤ := toLex (!m.isOne, if m.isOne then 0 else m.weight)

@[simp] theorem isOne_iff {m : Monomial} : m.isOne = true ↔ m = one := by
  obtain ⟨powers⟩ := m
  simp [isOne, one]

theorem key_lt_of_isOne {m n : Monomial} (hm : m.isOne = true) (hn : n.isOne = false) :
    m.key < n.key := by
  simp [key, Prod.Lex.lt_iff, hm, hn]

theorem key_one_le (m : Monomial) : one.key ≤ m.key := by
  by_cases h : m.isOne = true
  · rw [isOne_iff.1 h]
  · exact (key_lt_of_isOne rfl (Bool.not_eq_true _ ▸ h)).le

/-- Different monomials of the set have different weights. This leaves out 1, which is lowest. -/
def WeightsDiffer (S : Set Monomial) : Prop :=
  ∀ m ∈ S, ∀ n ∈ S, m ≠ one → n ≠ one → m.weight = n.weight → m = n

theorem key_of_ne_one {m : Monomial} (h : m ≠ one) : m.key = toLex (true, m.weight) := by
  have names : m.isOne = false := Bool.eq_false_iff.2 (mt isOne_iff.1 h)
  simp [key, names]

/-- The keys of different monomials are different if their weights are. -/
theorem WeightsDiffer.eq_of_key {S : Set Monomial} (differ : WeightsDiffer S) {m n : Monomial}
    (hm : m ∈ S) (hn : n ∈ S) (h : m.key = n.key) : m = n := by
  by_cases m_one : m.isOne = true <;> by_cases n_one : n.isOne = true
  · rw [isOne_iff.1 m_one, isOne_iff.1 n_one]
  · exact absurd h (key_lt_of_isOne m_one (Bool.not_eq_true _ ▸ n_one)).ne
  · exact absurd h (key_lt_of_isOne n_one (Bool.not_eq_true _ ▸ m_one)).ne'
  · rw [isOne_iff] at m_one n_one
    rw [key_of_ne_one m_one, key_of_ne_one n_one] at h
    exact differ m hm n hn m_one n_one (Prod.mk.inj (toLex_inj.1 h)).2

/-- Whether 1 is in the set makes no difference. -/
theorem WeightsDiffer.insert_one {S : Set Monomial} (differ : WeightsDiffer S) :
    WeightsDiffer (insert one S) := by
  intro m hm n hn m_one n_one weights
  exact differ m (hm.resolve_left m_one) n (hn.resolve_left n_one) m_one n_one weights

theorem weightsDiffer_weighable : WeightsDiffer {m | m.Weighable} :=
  fun _ hm _ hn _ _ weights => hm.eq_of_weight hn weights

/-- The key tells monomials apart. -/
theorem Weighable.eq_of_key {m n : Monomial} (hm : m.Weighable) (hn : n.Weighable)
    (h : m.key = n.key) : m = n :=
  weightsDiffer_weighable.eq_of_key hm hn h

end Monomial

/-- Ranks are preordered by a lexicographic comparison. -/
instance Rank.transCmp : Std.TransCmp Rank.compare :=
  inferInstanceAs <| Std.TransCmp <| compareLex (compareOn Rank.hasNames) <|
    compareLex (compareOn Rank.weight) (compareOn Rank.factor)

namespace Term

/-- Terms are preordered by their ranks. -/
instance : Std.TransCmp compare where
  eq_swap := Rank.transCmp.eq_swap
  isLE_trans := Rank.transCmp.isLE_trans

theorem rank_eq (t : Term) :
    t.rank = ⟨(ofLex t.monomial.key).1, (ofLex t.monomial.key).2, t.factor⟩ := by
  unfold rank weight? isConstant Monomial.key
  split <;> simp [*]

theorem compare_eq_gt_iff {s t : Term} : s.compare t = .gt ↔
    t.monomial.key < s.monomial.key ∨
      t.monomial.key = s.monomial.key ∧ t.factor < s.factor := by
  rw [compare, rank_eq, rank_eq, Prod.Lex.lt_iff, ← ofLex_inj (a := t.monomial.key), Prod.ext_iff]
  generalize ofLex s.monomial.key = k
  generalize ofLex t.monomial.key = l
  obtain ⟨a, v⟩ := k
  obtain ⟨b, w⟩ := l
  simp only [Rank.compare, Ordering.then_eq_gt, Int.compare_eq_gt, Int.compare_eq_eq]
  cases a <;> cases b <;> simp [Ord.compare] <;> omega

/-- A term does not rank above itself, and two terms do not rank above each other. -/
theorem compare_gt_asymm {s t : Term} (h : s.compare t = .gt) : ¬t.compare s = .gt := by
  rw [compare_eq_gt_iff] at h ⊢
  rintro (lt | ⟨eq, lt⟩)
  · rcases h with lt' | ⟨eq, -⟩
    · exact lt_asymm lt lt'
    · exact lt.ne' eq
  · rcases h with lt' | ⟨-, lt'⟩
    · exact lt'.ne' eq
    · exact lt_asymm lt lt'

/-! ## Sorting -/

/-- Nothing is lost or made up by sorting. -/
theorem descending_perm (ts : List Term) : (descending ts).Perm ts := by
  have sorted := List.mergeSort_perm (ts.map fun t => (t.rank, t)) fun a b => (b.1.compare a.1).isLE
  simpa [descending, Function.comp_def] using sorted.map (·.2)

theorem descending_pairwise_compare (ts : List Term) :
    (descending ts).Pairwise fun s t => (t.compare s).isLE = true := by
  have trans : ∀ a b c : Rank × Term, (b.1.compare a.1).isLE = true →
      (c.1.compare b.1).isLE = true → (c.1.compare a.1).isLE = true :=
    fun _ _ _ hab hbc => Rank.transCmp.isLE_trans hbc hab
  have total : ∀ a b : Rank × Term,
      ((b.1.compare a.1).isLE || (a.1.compare b.1).isLE) = true := by
    intro a b
    rw [Bool.or_eq_true, or_iff_not_imp_left]
    intro h
    exact Ordering.isLE_of_eq_lt (Std.OrientedCmp.lt_of_not_isLE h)
  have sorted := List.pairwise_mergeSort trans total (ts.map fun t => (t.rank, t))
  rw [descending, List.pairwise_map]
  apply sorted.imp_of_mem
  intro a b ha hb h
  -- Each term was paired with its own rank.
  have own : ∀ p ∈ (ts.map fun t => (t.rank, t)).mergeSort fun a b => (b.1.compare a.1).isLE,
      p.1 = p.2.rank := by
    intro p hp
    obtain ⟨t, -, rfl⟩ := List.mem_map.1 (List.mem_mergeSort.1 hp)
    rfl
  rwa [own a ha, own b hb] at h

/-- After sorting, keys never rise. -/
theorem descending_pairwise_key (ts : List Term) :
    (descending ts).Pairwise fun s t => t.monomial.key ≤ s.monomial.key := by
  apply (descending_pairwise_compare ts).imp
  intro s t h
  by_contra lt
  rw [compare_eq_gt_iff.2 (.inl (not_le.1 lt))] at h
  cases h

end Term

end Expansion
