import Expansion.Proofs.Order

/-!
# The graded order

Monomials can be ordered by their total degrees, and those of one degree alphabetically: at the
first name with different exponents, the smaller exponent is that of the lower monomial
(`Monomial.GradedLT`).

**Theorem (`weight_lt_iff`).** Over digit names, weights order monomials in this way.

**Theorem (`compare_graded`).** Terms over digit names are totally ordered by their monomials in
this way and then by their factors, and only equal terms compare equal.

A weight is the numeral of a monomial's word. A longer word has the larger numeral, because no
digit is zero. Of two words of one length, the first letter in which they differ decides, and a
letter that is earlier in the alphabet is the larger digit.
-/

namespace Expansion

namespace Monomial

variable {m n : Monomial}

/-- The sum of the exponents. -/
def totalDegree (m : Monomial) : Nat := (m.powers.map (·.2)).sum

/-- The total degree is smaller, or it is the same and the first name with different exponents has
the smaller one. -/
def GradedLT (m n : Monomial) : Prop :=
  m.totalDegree < n.totalDegree ∨ m.totalDegree = n.totalDegree ∧
    ∃ x, m.exponent x < n.exponent x ∧ ∀ y, y < x → m.exponent y = n.exponent y

/-! ## Words -/

theorem length_letters (m : Monomial) : m.letters.length = m.totalDegree := by
  rw [letters, List.length_flatMap, totalDegree]
  congr 1
  exact List.map_congr_left fun p _ => List.length_replicate

/-! ## Numerals of different words -/

theorem addUnit_lt_addUnit {v w : Int} {x y : Char} (hx : IsDigitName x) (hy : IsDigitName y)
    (lt : v < w) : addUnit v x < addUnit w y := by
  have x_le := share_le hx
  have y_pos := share_pos hy
  unfold addUnit
  omega

theorem addUnit_lt_of_lt {x y : Char} (v : Int) (lt : x < y) : addUnit v y < addUnit v x := by
  have lt : x.toNat < y.toNat := lt
  unfold addUnit share
  omega

/-- What follows as many digits cannot make up for a smaller start. -/
theorem foldl_addUnit_lt {v w : Int} {xs ys : List Char} (hxs : ∀ x ∈ xs, IsDigitName x)
    (hys : ∀ y ∈ ys, IsDigitName y) (length : xs.length = ys.length) (lt : v < w) :
    xs.foldl addUnit v < ys.foldl addUnit w := by
  induction xs generalizing v w ys with
  | nil =>
    obtain rfl := List.length_eq_zero_iff.1 length.symm
    exact lt
  | cons x xs ih =>
    obtain ⟨y, ys, rfl⟩ := List.exists_cons_of_length_eq_add_one length.symm
    obtain ⟨hx, hxs⟩ := List.forall_mem_cons.1 hxs
    obtain ⟨hy, hys⟩ := List.forall_mem_cons.1 hys
    rw [List.length_cons, List.length_cons, Nat.add_right_cancel_iff] at length
    rw [List.foldl_cons, List.foldl_cons]
    exact ih hxs hys length (addUnit_lt_addUnit hx hy lt)

theorem lt_foldl_addUnit {v : Int} {xs : List Char} (hxs : ∀ x ∈ xs, IsDigitName x) (ne : xs ≠ [])
    (pos : 0 < v) : v < xs.foldl addUnit v := by
  induction xs generalizing v with
  | nil => exact absurd rfl ne
  | cons x xs ih =>
    obtain ⟨hx, hxs⟩ := List.forall_mem_cons.1 hxs
    have digit := share_pos hx
    have first : v < addUnit v x := by
      unfold addUnit
      omega
    rw [List.foldl_cons]
    by_cases last : xs = []
    · rwa [last]
    · exact first.trans (ih hxs last (pos.trans first))

/-- The numeral of a longer word is larger. -/
theorem foldl_addUnit_lt_of_length {v : Int} {xs ys : List Char} (hxs : ∀ x ∈ xs, IsDigitName x)
    (hys : ∀ y ∈ ys, IsDigitName y) (pos : 0 < v) (lt : xs.length < ys.length) :
    xs.foldl addUnit v < ys.foldl addUnit v := by
  -- The last digits of the longer numeral are as many as those of the shorter one.
  obtain ⟨front, back, rfl, length⟩ : ∃ front back, ys = front ++ back ∧ xs.length = back.length :=
    ⟨_, _, (List.take_append_drop (ys.length - xs.length) ys).symm, by simp; omega⟩
  obtain ⟨hfront, hback⟩ := List.forall_mem_append.1 hys
  have ne : front ≠ [] := by
    rintro rfl
    rw [List.nil_append, length] at lt
    exact Nat.lt_irrefl _ lt
  rw [List.foldl_append]
  exact foldl_addUnit_lt hxs hback length (lt_foldl_addUnit hfront ne pos)

/-- Of two words of one length, the one with fewer of the first letter that they do not have equally
often has the smaller numeral. -/
theorem foldl_addUnit_lt_of_count {v : Int} {xs ys : List Char} {z : Char}
    (xs_digits : ∀ x ∈ xs, IsDigitName x) (ys_digits : ∀ y ∈ ys, IsDigitName y)
    (xs_sorted : xs.Pairwise (· ≤ ·)) (ys_sorted : ys.Pairwise (· ≤ ·))
    (length : xs.length = ys.length) (lt : xs.count z < ys.count z)
    (before : ∀ y, y < z → xs.count y = ys.count y) :
    xs.foldl addUnit v < ys.foldl addUnit v := by
  induction xs generalizing v ys with
  | nil =>
    obtain rfl := List.length_eq_zero_iff.1 length.symm
    exact absurd lt (Nat.lt_irrefl _)
  | cons x xs ih =>
    obtain ⟨y, ys, rfl⟩ := List.exists_cons_of_length_eq_add_one length.symm
    obtain ⟨hx, hxs⟩ := List.forall_mem_cons.1 xs_digits
    obtain ⟨hy, hys⟩ := List.forall_mem_cons.1 ys_digits
    obtain ⟨x_le, xs_tail⟩ := List.pairwise_cons.1 xs_sorted
    obtain ⟨y_le, ys_tail⟩ := List.pairwise_cons.1 ys_sorted
    rw [List.length_cons, List.length_cons, Nat.add_right_cancel_iff] at length
    rw [List.foldl_cons, List.foldl_cons]
    rcases lt_trichotomy x y with smaller | rfl | larger
    · -- The letter `x` is not in the second word, so `z` would have to come before it.
      have absent : (y :: ys).count x = 0 := by
        refine List.count_eq_zero.2 fun mem => ?_
        rcases List.mem_cons.1 mem with eq | mem
        · exact smaller.ne eq
        · exact absurd (y_le x mem) (not_le.2 smaller)
      have present : 0 < (x :: xs).count x := List.count_pos_iff.2 List.mem_cons_self
      have z_le : z ≤ x := not_lt.1 fun x_lt => by
        have := before x x_lt
        omega
      have z_mem : z ∈ y :: ys := List.count_pos_iff.1 (Nat.zero_lt_of_lt lt)
      rcases List.mem_cons.1 z_mem with eq | z_mem
      · exact absurd (eq ▸ z_le) (not_le.2 smaller)
      · exact absurd ((y_le z z_mem).trans z_le) (not_le.2 smaller)
    · -- The first letters are the same.
      refine ih hxs hys xs_tail ys_tail length ?_ fun c hc => ?_
      · simpa [List.count_cons] using lt
      · simpa [List.count_cons] using before c hc
    · -- The first letter decides.
      exact foldl_addUnit_lt hxs hys length (addUnit_lt_of_lt v larger)

/-! ## Weights -/

theorem Weighable.weight_lt (hm : m.Weighable) (hn : n.Weighable) (h : m.GradedLT n) :
    m.weight < n.weight := by
  rw [weight_eq_foldl, weight_eq_foldl]
  rcases h with lt | ⟨eq, x, lt, before⟩
  · rw [← length_letters, ← length_letters] at lt
    exact foldl_addUnit_lt_of_length hm.digits.letters hn.digits.letters (by decide) lt
  · rw [← length_letters, ← length_letters] at eq
    simp only [← count_letters] at lt before
    exact foldl_addUnit_lt_of_count hm.digits.letters hn.digits.letters hm.normal.sorted_letters
      hn.normal.sorted_letters eq lt before

/-- Different monomials of one degree differ in some name for the first time. -/
theorem Normal.gradedLT_trichotomy (hm : m.Normal) (hn : n.Normal) :
    m.GradedLT n ∨ m = n ∨ n.GradedLT m := by
  rcases Nat.lt_trichotomy m.totalDegree n.totalDegree with lt | eq | gt
  · exact .inl (.inl lt)
  · by_cases same : ∀ x, m.exponent x = n.exponent x
    · exact .inr (.inl (hm.ext hn same))
    obtain ⟨x, differ, first⟩ := (measure Char.toNat).wf.has_min
      {x | m.exponent x ≠ n.exponent x} (not_forall.1 same)
    have before : ∀ y, y < x → m.exponent y = n.exponent y :=
      fun y lt => not_not.1 fun differ => first y differ lt
    rcases Nat.lt_or_gt_of_ne differ with lt | gt
    · exact .inl (.inr ⟨eq, x, lt, before⟩)
    · exact .inr (.inr (.inr ⟨eq.symm, x, gt, fun y lt => (before y lt).symm⟩))
  · exact .inr (.inr (.inl gt))

/-- Weights order monomials by their degrees, and those of one degree alphabetically. -/
theorem Weighable.weight_lt_iff (hm : m.Weighable) (hn : n.Weighable) :
    m.weight < n.weight ↔ m.GradedLT n := by
  refine ⟨fun lt => ?_, hm.weight_lt hn⟩
  rcases hm.normal.gradedLT_trichotomy hn.normal with below | rfl | above
  · exact below
  · exact absurd lt (lt_irrefl _)
  · exact absurd lt (hn.weight_lt hm above).asymm

/-! ## Keys -/

theorem not_gradedLT_one : ¬m.GradedLT one := by
  rintro (lt | ⟨-, x, lt, -⟩)
  · exact Nat.not_lt_zero _ lt
  · exact Nat.not_lt_zero _ lt

theorem Weighable.key_lt (hm : m.Weighable) (hn : n.Weighable) (h : m.GradedLT n) :
    m.key < n.key := by
  have n_names : n.isOne = false := by
    rw [← Bool.not_eq_true, isOne_iff]
    rintro rfl
    exact not_gradedLT_one h
  cases m_one : m.isOne with
  | true => exact key_lt_of_isOne m_one n_names
  | false => simp [key, Prod.Lex.lt_iff, m_one, n_names, hm.weight_lt hn h]

/-- The monomial 1 is lowest in the graded order, too. -/
theorem Weighable.key_lt_iff (hm : m.Weighable) (hn : n.Weighable) :
    m.key < n.key ↔ m.GradedLT n := by
  refine ⟨fun lt => ?_, hm.key_lt hn⟩
  rcases hm.normal.gradedLT_trichotomy hn.normal with below | rfl | above
  · exact below
  · exact absurd lt (lt_irrefl _)
  · exact absurd lt (hn.key_lt hm above).asymm

end Monomial

namespace Term

variable {s t : Term}

theorem compare_swap (s t : Term) : t.compare s = (s.compare t).swap := Std.OrientedCmp.eq_swap

theorem compare_eq_lt_iff (hs : s.monomial.Weighable) (ht : t.monomial.Weighable) :
    s.compare t = .lt ↔ s.monomial.GradedLT t.monomial ∨
      s.monomial = t.monomial ∧ s.factor < t.factor := by
  have keys : s.monomial.key = t.monomial.key ↔ s.monomial = t.monomial :=
    ⟨hs.eq_of_key ht, congrArg Monomial.key⟩
  rw [← hs.key_lt_iff ht, ← keys, ← compare_eq_gt_iff, compare_swap s t, Ordering.swap_eq_gt]

theorem compare_eq_eq_iff (hs : s.monomial.Weighable) (ht : t.monomial.Weighable) :
    s.compare t = .eq ↔ s = t := by
  constructor
  · intro eq
    have not_lt : ¬s.compare t = .lt := by simp [eq]
    have not_gt : ¬t.compare s = .lt := by simp [compare_swap s t, eq]
    rw [compare_eq_lt_iff hs ht, not_or, not_and] at not_lt
    rw [compare_eq_lt_iff ht hs, not_or, not_and] at not_gt
    obtain ⟨below, smaller⟩ := not_lt
    obtain ⟨above, larger⟩ := not_gt
    have same := ((hs.normal.gradedLT_trichotomy ht.normal).resolve_left below).resolve_right above
    have factor : s.factor = t.factor :=
      le_antisymm (not_lt.1 (larger same.symm)) (not_lt.1 (smaller same))
    obtain ⟨c, m⟩ := s
    exact congrArg₂ Term.mk factor same
  · rintro rfl
    exact Std.ReflCmp.compare_self

/-- Variable terms are weighed by their degrees, and those of one degree alphabetically. Terms are
totally ordered in this way, constant terms lowest, and then by their factors. -/
theorem compare_graded (hs : s.monomial.Weighable) (ht : t.monomial.Weighable) :
    (s.isConstant = false → t.isConstant = false → ∃ v w, s.weight? = some v ∧ t.weight? = some w ∧
      (v < w ↔ s.monomial.GradedLT t.monomial) ∧ (v = w ↔ s.monomial = t.monomial)) ∧
    (s.compare t = .lt ↔ s.monomial.GradedLT t.monomial ∨
      s.monomial = t.monomial ∧ s.factor < t.factor) ∧
    (s.compare t = .eq ↔ s = t) ∧
    t.compare s = (s.compare t).swap ∧
    ∀ u, (s.compare t).isLE = true → (t.compare u).isLE = true → (s.compare u).isLE = true := by
  refine ⟨fun s_names t_names => ?_, compare_eq_lt_iff hs ht, compare_eq_eq_iff hs ht,
    compare_swap s t, fun u => Std.TransCmp.isLE_trans⟩
  exact ⟨_, _, weight?_eq_some s_names, weight?_eq_some t_names, hs.weight_lt_iff ht,
    hs.eq_of_weight ht, congrArg Monomial.weight⟩

/-- Of two terms of one degree, the one with less of the first letter is lower, whatever the factors
are. -/
theorem compare_graded_one_degree :
    Monomial.GradedLT ⟨[('a', 1), ('\x7f', 2)]⟩ ⟨[('a', 2), ('b', 1)]⟩ ∧
    (⟨7, ⟨[('a', 1), ('\x7f', 2)]⟩⟩ : Term).compare ⟨-2, ⟨[('a', 2), ('b', 1)]⟩⟩ = .lt ∧
    (⟨-2, ⟨[('a', 2), ('b', 1)]⟩⟩ : Term).compare ⟨7, ⟨[('a', 1), ('\x7f', 2)]⟩⟩ = .gt := by
  have lower : Monomial.Weighable ⟨[('a', 1), ('\x7f', 2)]⟩ := by decide
  have higher : Monomial.Weighable ⟨[('a', 2), ('b', 1)]⟩ := by decide
  obtain ⟨weights, below, -, swap, -⟩ := compare_graded (s := ⟨7, _⟩) (t := ⟨-2, _⟩) lower higher
  obtain ⟨v, w, hv, hw, graded, -⟩ := weights rfl rfl
  cases hv
  cases hw
  have lt := graded.1 (by decide)
  have first := below.2 (.inl lt)
  exact ⟨lt, first, swap.trans (congrArg Ordering.swap first)⟩

end Term

end Expansion
