import Expansion.Monomial
import Mathlib.Data.Char
import Mathlib.Data.List.Sort

/-!
# Monomials as exponents

A monomial in normal form is determined by its exponents (`Normal.ext`): a power stands in it
exactly if its exponent is the exponent of its name and is positive. The second view of a monomial
is the word `letters`, in which each name is written once for each unit of its exponent, in the
order of the names.
-/

namespace Expansion.Monomial

/-- Every name of the monomial satisfies `P`. -/
def NamesIn (P : Char → Prop) (m : Monomial) : Prop := ∀ p ∈ m.powers, P p.1

instance (P : Char → Prop) [DecidablePred P] (m : Monomial) : Decidable (m.NamesIn P) :=
  inferInstanceAs (Decidable (∀ p ∈ m.powers, P p.1))

@[simp] theorem namesIn_one (P : Char → Prop) : one.NamesIn P := fun _ hp => nomatch hp

theorem NamesIn.mono {P Q : Char → Prop} (h : ∀ x, P x → Q x) {m : Monomial} (hm : m.NamesIn P) :
    m.NamesIn Q := fun p hp => h p.1 (hm p hp)

/-! ## Powers and exponents -/

theorem total_eq_zero {x : Char} {ps : List (Char × Nat)} (h : ∀ p ∈ ps, p.1 ≠ x) :
    total x ps = 0 := by
  induction ps with
  | nil => rfl
  | cons p ps ih =>
    obtain ⟨hp, hps⟩ := List.forall_mem_cons.1 h
    rw [total_cons, if_neg hp, ih hps]

theorem total_of_mem {x : Char} {e : Nat} {ps : List (Char × Nat)}
    (sorted : ps.Pairwise (·.1 < ·.1)) (h : (x, e) ∈ ps) : total x ps = e := by
  induction ps with
  | nil => cases h
  | cons p ps ih =>
    obtain ⟨y, d⟩ := p
    obtain ⟨before, rest_sorted⟩ := List.pairwise_cons.1 sorted
    rw [total_cons]
    rcases List.mem_cons.1 h with head | tail
    · obtain ⟨rfl, rfl⟩ := Prod.mk.inj head
      rw [if_pos rfl, total_eq_zero fun p hp => (before p hp).ne', Nat.add_zero]
    · rw [if_neg (before _ tail).ne, ih rest_sorted tail]

theorem exists_mem_of_total_pos {x : Char} {ps : List (Char × Nat)} (h : 0 < total x ps) :
    ∃ e, (x, e) ∈ ps := by
  by_contra none
  refine h.ne' (total_eq_zero fun p hp eq => none ⟨p.2, ?_⟩)
  rw [← eq]
  exact hp

/-- The powers of a monomial in normal form are its positive exponents. -/
theorem Normal.mem_powers {m : Monomial} (h : m.Normal) {x : Char} {e : Nat} :
    (x, e) ∈ m.powers ↔ m.exponent x = e ∧ 0 < e := by
  constructor
  · intro mem
    exact ⟨total_of_mem h.sorted mem, h.positive _ mem⟩
  · rintro ⟨rfl, positive⟩
    obtain ⟨d, mem⟩ := exists_mem_of_total_pos positive
    rwa [exponent, total_of_mem h.sorted mem]

/-- Monomials in normal form with the same exponents are equal. -/
theorem Normal.ext {m n : Monomial} (hm : m.Normal) (hn : n.Normal)
    (h : ∀ x, m.exponent x = n.exponent x) : m = n := by
  have : Std.Antisymm fun p q : Char × Nat => p.1 < q.1 := ⟨fun _ _ h h' => absurd h' h.asymm⟩
  have : Std.Irrefl fun p q : Char × Nat => p.1 < q.1 := ⟨fun p => lt_irrefl p.1⟩
  have powers_eq : m.powers = n.powers := hm.sorted.eq_of_mem_iff hn.sorted fun ⟨x, e⟩ => by
    rw [hm.mem_powers, hn.mem_powers, h]
  cases m
  cases n
  exact congrArg Monomial.mk powers_eq

theorem Normal.namesIn_iff {P : Char → Prop} {m : Monomial} (h : m.Normal) :
    m.NamesIn P ↔ ∀ x, 0 < m.exponent x → P x := by
  constructor
  · intro names x positive
    exact names _ (h.mem_powers.2 ⟨rfl, positive⟩)
  · intro exponents p hp
    obtain ⟨eq, positive⟩ := h.mem_powers.1 hp
    exact exponents p.1 (eq ▸ positive)

/-- A monomial fits if all its exponents do. -/
theorem Normal.fits_iff {m : Monomial} (h : m.Normal) :
    m.fits = true ↔ ∀ x, m.exponent x ≤ maxExponent := by
  rw [fits, List.all_eq_true]
  constructor
  · intro small x
    rcases Nat.eq_zero_or_pos (m.exponent x) with zero | positive
    · exact zero ▸ Nat.zero_le _
    · exact of_decide_eq_true (small _ (h.mem_powers.2 ⟨rfl, positive⟩))
  · intro small p hp
    exact decide_eq_true ((h.mem_powers.1 hp).1 ▸ small p.1)

/-- A product fits if the exponents of its two factors add up to little enough. -/
theorem Normal.fits_mul_iff (m : Monomial) {n : Monomial} (h : n.Normal) :
    (m.mul n).fits = true ↔ ∀ x, m.exponent x + n.exponent x ≤ maxExponent := by
  simp only [(h.mul m).fits_iff, exponent_mul]

/-! ## Words -/

/-- The names of a monomial, each as often as its exponent says. -/
def letters (m : Monomial) : List Char := m.powers.flatMap fun (x, e) => List.replicate e x

theorem count_letters (m : Monomial) (x : Char) : m.letters.count x = m.exponent x := by
  show (m.powers.flatMap _).count x = total x m.powers
  induction m.powers with
  | nil => rfl
  | cons p ps ih =>
    obtain ⟨y, d⟩ := p
    rw [List.flatMap_cons, List.count_append, ih, List.count_replicate, total_cons]
    by_cases h : y = x <;> simp [h]

/-- The word has its letters in the order of the names. -/
theorem Normal.sorted_letters {m : Monomial} (h : m.Normal) : m.letters.Pairwise (· ≤ ·) := by
  rw [letters, List.pairwise_flatMap]
  refine ⟨fun p _ => List.pairwise_replicate.2 (.inr le_rfl), h.sorted.imp ?_⟩
  intro p q lt x hx y hy
  rw [List.eq_of_mem_replicate hx, List.eq_of_mem_replicate hy]
  exact lt.le

/-- Monomials in normal form with the same word are equal. -/
theorem Normal.ext_letters {m n : Monomial} (hm : m.Normal) (hn : n.Normal)
    (h : m.letters = n.letters) : m = n :=
  hm.ext hn fun x => by rw [← count_letters, ← count_letters, h]

theorem NamesIn.letters {P : Char → Prop} {m : Monomial} (h : m.NamesIn P) :
    ∀ x ∈ m.letters, P x := by
  intro x hx
  obtain ⟨p, hp, mem⟩ := List.mem_flatMap.1 hx
  exact List.eq_of_mem_replicate mem ▸ h p hp

end Expansion.Monomial
