import Expansion.Proofs.Exponents
import Expansion.Term.Order
import Mathlib.Algebra.Ring.GeomSum
import Mathlib.Data.List.Induction
import Mathlib.Tactic.Ring

/-!
# Weights tell monomials apart

**Theorem (`weight?_eq_foldl`).** The weight of a variable term is built up from 17, one unit of
exponent at a time in the order of the names, whatever the names and exponents are.

**Theorem (`Weighable.eq_of_weight`).** Over digit names, the weight determines the monomial.

Read as a number in base 31, a weight has 17 in front and then one digit for each letter of the
monomial's word. The names with code points from 97 to 127 have the shares 31 down to 1, which are
the digits of a numeral without zero, and such numerals are read in one way only.
-/

namespace Expansion

namespace Monomial

/-- The names whose shares are the digits from 1 to 31. -/
def IsDigitName (x : Char) : Prop := 97 ≤ x.toNat ∧ x.toNat ≤ 127

instance : DecidablePred IsDigitName := fun x =>
  inferInstanceAs (Decidable (97 ≤ x.toNat ∧ x.toNat ≤ 127))

theorem share_pos {x : Char} (h : IsDigitName x) : 1 ≤ share x := by
  unfold share
  have := h.2
  omega

theorem share_le {x : Char} (h : IsDigitName x) : share x ≤ 31 := by
  unfold share
  have := h.1
  omega

theorem share_injective : Function.Injective share := by
  intro x y h
  unfold share at h
  exact Char.toNat_inj.1 (by omega)

/-! ## One unit at a time -/

/-- A weight after one more unit of exponent of `x`. -/
def addUnit (weight : Int) (x : Char) : Int := weight * 31 + share x

theorem pow_sub_one_div (e : Nat) : 30 * ((31 ^ e - 1) / 30) + 1 = 31 ^ e := by
  have dvd : 30 ∣ 31 ^ e - 1 := by simpa using Nat.sub_dvd_pow_sub_pow 31 1 e
  have pos : 0 < 31 ^ e := Nat.pow_pos (by decide)
  rw [Nat.mul_div_cancel' dvd]
  omega

theorem addPower_succ (weight : Int) (x : Char) (e : Nat) :
    addPower weight (x, e + 1) = addPower (addUnit weight x) (x, e) := by
  have now := pow_sub_one_div e
  have next := pow_sub_one_div (e + 1)
  have series : (31 ^ (e + 1) - 1) / 30 = 31 ^ e + (31 ^ e - 1) / 30 := by
    rw [pow_succ] at next ⊢
    omega
  show weight * ((31 ^ (e + 1) : Nat) : Int) + (((31 ^ (e + 1) - 1) / 30 : Nat) : Int) * share x =
    addUnit weight x * ((31 ^ e : Nat) : Int) + (((31 ^ e - 1) / 30 : Nat) : Int) * share x
  rw [series, addUnit, pow_succ]
  push_cast
  ring

theorem addPower_eq_foldl (weight : Int) (x : Char) (e : Nat) :
    addPower weight (x, e) = (List.replicate e x).foldl addUnit weight := by
  induction e generalizing weight with
  | zero => simp [addPower]
  | succ e ih => rw [addPower_succ, ih, List.replicate_succ, List.foldl_cons]

/-- A weight is the number that 17 and the shares of the letters write in base 31. -/
theorem weight_eq_foldl (m : Monomial) : m.weight = m.letters.foldl addUnit 17 := by
  rw [letters, List.foldl_flatMap, weight]
  congr 1
  funext weight power
  exact addPower_eq_foldl weight power.1 power.2

/-- The word is in the order of the names, and has each name as often as its exponent says. -/
structure Spells (word : List Char) (m : Monomial) : Prop where
  sorted : word.Pairwise (· ≤ ·)
  count : ∀ x, word.count x = m.exponent x

theorem Normal.spells_letters {m : Monomial} (h : m.Normal) : Spells m.letters m :=
  ⟨h.sorted_letters, count_letters m⟩

theorem Spells.unique {v w : List Char} {m : Monomial} (hv : Spells v m) (hw : Spells w m) :
    v = w := by
  have perm : v.Perm w := List.perm_iff_count.2 fun x => (hv.count x).trans (hw.count x).symm
  exact perm.eq_of_pairwise (fun _ _ _ _ => le_antisymm) hv.sorted hw.sorted

end Monomial

namespace Term

open Monomial

variable {t : Term}

theorem weight?_eq_some (h : t.isConstant = false) : t.weight? = some t.monomial.weight := by
  rw [weight?, h]
  rfl

/-- There is one word that spells the names of a term, and the weight of a variable term is what 17
becomes over this word, where each letter makes `31 * h + (128 - code point)` of `h`. -/
theorem weight?_eq_foldl (normal : t.monomial.Normal) (names : t.isConstant = false) :
    (∃! word, Spells word t.monomial) ∧ ∀ word, Spells word t.monomial →
      t.weight? = some (word.foldl (fun h x => 31 * h + (128 - (x.toNat : Int))) 17) := by
  refine ⟨⟨_, normal.spells_letters, fun _ h => h.unique normal.spells_letters⟩, ?_⟩
  intro word spells
  have unit : (fun (h : Int) (x : Char) => 31 * h + (128 - (x.toNat : Int))) = addUnit := by
    funext h x
    rw [addUnit, share, mul_comm]
  rw [weight?_eq_some names, weight_eq_foldl, spells.unique normal.spells_letters, unit]

/-- The name with the code point 128 adds nothing to 31 times the weight, and the one with the code
point 233 takes something away. -/
theorem weight?_eq_foldl_beyond_digits :
    weight? ⟨-2, ⟨[('a', 2), ('\u0080', 1), ('é', 3)]⟩⟩ =
      some (['a', 'a', '\u0080', 'é', 'é', 'é'].foldl
        (fun h x => 31 * h + (128 - (x.toNat : Int))) 17) := by
  have normal : Normal ⟨[('a', 2), ('\u0080', 1), ('é', 3)]⟩ := by decide
  exact (weight?_eq_foldl (t := ⟨-2, _⟩) normal rfl).2 _ normal.spells_letters

end Term

namespace Monomial

/-! ## Numerals without zero -/

theorem foldl_addUnit_ge {xs : List Char} (h : ∀ x ∈ xs, IsDigitName x) :
    17 ≤ xs.foldl addUnit 17 := by
  induction xs using List.reverseRecOn with
  | nil => exact le_rfl
  | append_singleton xs x ih =>
    rw [List.forall_mem_append] at h
    have digit := share_pos (h.2 x List.mem_cons_self)
    have before := ih h.1
    rw [List.foldl_concat, addUnit]
    omega

/-- The last digit of two equal numerals is the same, and so is what stands before it. -/
theorem addUnit_injective {v w : Int} {x y : Char} (hx : IsDigitName x) (hy : IsDigitName y)
    (h : addUnit v x = addUnit w y) : v = w ∧ x = y := by
  have x_pos := share_pos hx
  have x_le := share_le hx
  have y_pos := share_pos hy
  have y_le := share_le hy
  unfold addUnit at h
  have shares : share x = share y := by omega
  exact ⟨by omega, share_injective shares⟩

theorem foldl_addUnit_injective {xs ys : List Char} (hxs : ∀ x ∈ xs, IsDigitName x)
    (hys : ∀ y ∈ ys, IsDigitName y) (h : xs.foldl addUnit 17 = ys.foldl addUnit 17) : xs = ys := by
  -- The digits are compared from the last one on, so the induction runs from the right.
  induction xs using List.reverseRecOn generalizing ys with
  | nil =>
    cases ys using List.reverseRecOn with
    | nil => rfl
    | append_singleton ys y =>
      rw [List.forall_mem_append] at hys
      have digit := share_pos (hys.2 y List.mem_cons_self)
      have before := foldl_addUnit_ge hys.1
      rw [List.foldl_concat, addUnit] at h
      simp only [List.foldl_nil] at h
      omega
  | append_singleton xs x ih =>
    rw [List.forall_mem_append] at hxs
    have x_digit := hxs.2 x List.mem_cons_self
    cases ys using List.reverseRecOn with
    | nil =>
      have digit := share_pos x_digit
      have before := foldl_addUnit_ge hxs.1
      rw [List.foldl_concat, addUnit] at h
      simp only [List.foldl_nil] at h
      omega
    | append_singleton ys y =>
      rw [List.forall_mem_append] at hys
      have y_digit := hys.2 y List.mem_cons_self
      rw [List.foldl_concat, List.foldl_concat] at h
      obtain ⟨before, rfl⟩ := addUnit_injective x_digit y_digit h
      rw [ih hxs.1 hys.1 before]

/-- A monomial in normal form, all of whose names are digits. -/
structure Weighable (m : Monomial) : Prop where
  normal : m.Normal
  digits : m.NamesIn IsDigitName

instance (m : Monomial) : Decidable m.Weighable :=
  decidable_of_iff (m.Normal ∧ m.NamesIn IsDigitName)
    ⟨fun h => ⟨h.1, h.2⟩, fun h => ⟨h.normal, h.digits⟩⟩

@[simp] theorem weighable_one : one.Weighable := ⟨normal_one, namesIn_one _⟩

theorem NamesIn.mul {P : Char → Prop} {m n : Monomial} (hm : m.Normal) (hn : n.Normal)
    (m_names : m.NamesIn P) (n_names : n.NamesIn P) : (m.mul n).NamesIn P := by
  refine (hn.mul m).namesIn_iff.2 ?_
  intro x positive
  rw [exponent_mul] at positive
  rcases Nat.add_pos_iff_pos_or_pos.1 positive with pos | pos
  · exact hm.namesIn_iff.1 m_names x pos
  · exact hn.namesIn_iff.1 n_names x pos

theorem Weighable.mul {m n : Monomial} (hm : m.Weighable) (hn : n.Weighable) :
    (m.mul n).Weighable :=
  ⟨hn.normal.mul m, NamesIn.mul hm.normal hn.normal hm.digits hn.digits⟩

/-- The weight tells monomials apart. -/
theorem Weighable.eq_of_weight {m n : Monomial} (hm : m.Weighable) (hn : n.Weighable)
    (h : m.weight = n.weight) : m = n := by
  rw [weight_eq_foldl, weight_eq_foldl] at h
  exact hm.normal.ext_letters hn.normal
    (foldl_addUnit_injective hm.digits.letters hn.digits.letters h)

/-! ## Letters -/

theorem isDigitName_of_isLower {x : Char} (h : x.isLower = true) : IsDigitName x := by
  obtain ⟨lower, upper⟩ := Bool.and_eq_true_iff.1 h
  have lower : 97 ≤ x.toNat := UInt32.le_iff_toNat_le.1 (of_decide_eq_true lower)
  have upper : x.toNat ≤ 122 := UInt32.le_iff_toNat_le.1 (of_decide_eq_true upper)
  exact ⟨lower, by omega⟩

/-- A valid monomial over the letters from `a` to `z`. -/
structure Lettered (m : Monomial) : Prop extends Valid m where
  letters : m.NamesIn fun x => x.isLower = true

instance (m : Monomial) : Decidable m.Lettered :=
  decidable_of_iff (m.Valid ∧ m.NamesIn fun x => x.isLower = true)
    ⟨fun h => ⟨h.1, h.2⟩, fun h => ⟨h.toValid, h.letters⟩⟩

@[simp] theorem lettered_one : one.Lettered := ⟨⟨normal_one, rfl⟩, namesIn_one _⟩

theorem Lettered.weighable {m : Monomial} (h : m.Lettered) : m.Weighable :=
  ⟨h.toNormal, h.letters.mono fun _ => isDigitName_of_isLower⟩

theorem Lettered.mul {m n : Monomial} (hm : m.Lettered) (hn : n.Lettered)
    (fits : (m.mul n).fits = true) : (m.mul n).Lettered :=
  ⟨⟨hn.toNormal.mul m, fits⟩, NamesIn.mul hm.toNormal hn.toNormal hm.letters hn.letters⟩

end Monomial

end Expansion
