import Expansion.Error
import Expansion.Numeral

/-!
# Monomials

A *monomial* is a product of powers of names. It is kept as the list of its powers, sorted by name,
each name once and with a positive exponent (`Monomial.Normal`), so that equal products are equal
monomials. The empty product is the monomial 1.

What a monomial is about is its exponents: `exponent` says for each name how often it is a factor,
and multiplying adds exponents (`exponent_mul`).
-/

namespace Expansion

/-- A product of powers of names. -/
structure Monomial where
  /-- The names with their exponents. -/
  powers : List (Char × Nat)
deriving DecidableEq

namespace Monomial

/-- The empty product. -/
def one : Monomial := ⟨[]⟩

/-- Whether the monomial is the empty product. -/
def isOne (m : Monomial) : Bool := m.powers.isEmpty

/-- The powers with the exponent of `x` raised by `e`. -/
def raise (x : Char) (e : Nat) : List (Char × Nat) → List (Char × Nat)
  | [] => [(x, e)]
  | (y, d) :: rest =>
    if x < y then (x, e) :: (y, d) :: rest
    else if x = y then (y, d + e) :: rest
    else (y, d) :: raise x e rest

/-- The monomial times `x` to the power `e`. -/
def mulPower (m : Monomial) (x : Char) (e : Nat) : Monomial :=
  if e = 0 then m else ⟨raise x e m.powers⟩

/-- The powers times the monomial `m`. Names may be repeated, and exponents may be zero. -/
def mulPowers (ps : List (Char × Nat)) (m : Monomial) : Monomial :=
  ps.foldr (fun (x, e) m => m.mulPower x e) m

/-- The product of the powers, in which names may be repeated and exponents may be zero. -/
def ofPowers (ps : List (Char × Nat)) : Monomial := mulPowers ps one

/-- The product of two monomials. -/
def mul (a b : Monomial) : Monomial := mulPowers a.powers b

/-- The sum of the exponents that `x` has in the powers. -/
def total (x : Char) (ps : List (Char × Nat)) : Nat :=
  ps.foldr (fun (y, d) n => if y = x then d + n else n) 0

/-- The exponent of `x`, which is zero if the name does not occur. -/
def exponent (m : Monomial) (x : Char) : Nat := total x m.powers

/-- Whether no exponent is above the largest one allowed. -/
def fits (m : Monomial) : Bool := m.powers.all fun (_, e) => e ≤ maxExponent

/-- A power is written as its name, followed by its exponent unless that is 1. -/
def powerChars : Char × Nat → List Char
  | (x, e) => if e = 1 then [x] else x :: Numeral.digits e

/-- The text of a monomial: its powers, one after another. -/
def chars (m : Monomial) : List Char := m.powers.flatMap powerChars

/-! ## Exponents -/

@[simp] theorem total_nil (x : Char) : total x [] = 0 := rfl

@[simp] theorem total_cons (x y : Char) (d : Nat) (ps : List (Char × Nat)) :
    total x ((y, d) :: ps) = if y = x then d + total x ps else total x ps := rfl

theorem total_raise (x y : Char) (e : Nat) (ps : List (Char × Nat)) :
    total y (raise x e ps) = (if x = y then e else 0) + total y ps := by
  induction ps with
  | nil => simp [raise]
  | cons p rest ih =>
    obtain ⟨z, d⟩ := p
    rw [raise]
    split
    · rw [total_cons]
      split <;> omega
    split
    · next h =>
      subst h
      rw [total_cons, total_cons]
      split <;> omega
    · rw [total_cons, total_cons, ih]
      split <;> omega

@[simp] theorem exponent_one (x : Char) : one.exponent x = 0 := rfl

theorem exponent_mulPower (m : Monomial) (x y : Char) (e : Nat) :
    (m.mulPower x e).exponent y = (if x = y then e else 0) + m.exponent y := by
  rw [mulPower]
  split
  · next h => simp [h]
  · exact total_raise x y e m.powers

theorem exponent_mulPowers (ps : List (Char × Nat)) (m : Monomial) (x : Char) :
    (mulPowers ps m).exponent x = total x ps + m.exponent x := by
  induction ps with
  | nil => simp [mulPowers]
  | cons p rest ih =>
    obtain ⟨y, d⟩ := p
    show ((mulPowers rest m).mulPower y d).exponent x = _
    rw [exponent_mulPower, ih, total_cons]
    split <;> omega

theorem exponent_ofPowers (ps : List (Char × Nat)) (x : Char) :
    (ofPowers ps).exponent x = total x ps := by
  rw [ofPowers, exponent_mulPowers, exponent_one, Nat.add_zero]

/-- Exponents add up in a product. -/
theorem exponent_mul (a b : Monomial) (x : Char) :
    (a.mul b).exponent x = a.exponent x + b.exponent x :=
  exponent_mulPowers a.powers b x

/-! ## Normal form -/

/-- Every name occurs once, in order, with a positive exponent. -/
structure Normal (m : Monomial) : Prop where
  sorted : m.powers.Pairwise (·.1 < ·.1)
  positive : ∀ p ∈ m.powers, 0 < p.2

/-- A monomial in normal form with no exponent above the largest one allowed. -/
structure Valid (m : Monomial) : Prop extends Normal m where
  fits : m.fits = true

instance (m : Monomial) : Decidable m.Normal :=
  decidable_of_iff (m.powers.Pairwise (·.1 < ·.1) ∧ ∀ p ∈ m.powers, 0 < p.2)
    ⟨fun h => ⟨h.1, h.2⟩, fun h => ⟨h.sorted, h.positive⟩⟩

instance (m : Monomial) : Decidable m.Valid :=
  decidable_of_iff (m.Normal ∧ m.fits = true) ⟨fun h => ⟨h.1, h.2⟩, fun h => ⟨h.toNormal, h.fits⟩⟩

theorem normal_one : one.Normal := ⟨.nil, by simp [one]⟩

theorem name_of_mem_raise {x : Char} {e : Nat} {ps : List (Char × Nat)} {p : Char × Nat}
    (h : p ∈ raise x e ps) : p.1 = x ∨ ∃ q ∈ ps, q.1 = p.1 := by
  induction ps with
  | nil =>
    rw [raise, List.mem_singleton] at h
    exact .inl (h ▸ rfl)
  | cons q rest ih =>
    rw [raise] at h
    split at h
    · exact (List.mem_cons.1 h).imp (congrArg Prod.fst) fun h => ⟨p, h, rfl⟩
    split at h
    · rcases List.mem_cons.1 h with rfl | h
      · exact .inr ⟨q, List.mem_cons_self, rfl⟩
      · exact .inr ⟨p, List.mem_cons_of_mem _ h, rfl⟩
    · rcases List.mem_cons.1 h with rfl | h
      · exact .inr ⟨_, List.mem_cons_self, rfl⟩
      · exact (ih h).imp id fun ⟨r, hr, eq⟩ => ⟨r, List.mem_cons_of_mem _ hr, eq⟩

theorem sorted_raise (x : Char) (e : Nat) {ps : List (Char × Nat)}
    (sorted : ps.Pairwise (·.1 < ·.1)) : (raise x e ps).Pairwise (·.1 < ·.1) := by
  induction ps with
  | nil => simp [raise]
  | cons q rest ih =>
    obtain ⟨before, rest_sorted⟩ := List.pairwise_cons.1 sorted
    rw [raise]
    split
    · next lt =>
      refine List.pairwise_cons.2 ⟨fun p hp => ?_, sorted⟩
      rcases List.mem_cons.1 hp with rfl | hp
      · exact lt
      · exact Char.lt_trans lt (before p hp)
    split
    · exact List.pairwise_cons.2 ⟨before, rest_sorted⟩
    · next not_lt ne =>
      refine List.pairwise_cons.2 ⟨fun p hp => ?_, ih rest_sorted⟩
      rcases name_of_mem_raise hp with eq | ⟨r, hr, eq⟩
      · rw [eq]
        exact Char.not_le.1 fun le => ne (Char.le_antisymm le (Char.not_lt.1 not_lt))
      · exact eq ▸ before r hr

theorem positive_raise {x : Char} {e : Nat} {ps : List (Char × Nat)}
    (positive : ∀ p ∈ ps, 0 < p.2) (he : 0 < e) : ∀ p ∈ raise x e ps, 0 < p.2 := by
  induction ps with
  | nil => simpa [raise] using he
  | cons q rest ih =>
    obtain ⟨head, tail⟩ := List.forall_mem_cons.1 positive
    rw [raise]
    split
    · exact List.forall_mem_cons.2 ⟨he, positive⟩
    split
    · exact List.forall_mem_cons.2 ⟨Nat.add_pos_left head e, tail⟩
    · exact List.forall_mem_cons.2 ⟨head, ih tail⟩

theorem Normal.mulPower {m : Monomial} (h : m.Normal) (x : Char) (e : Nat) :
    (m.mulPower x e).Normal := by
  rw [Monomial.mulPower]
  split
  · exact h
  · next he =>
    have positive : 0 < e := Nat.pos_of_ne_zero he
    exact ⟨sorted_raise x e h.sorted, positive_raise h.positive positive⟩

theorem Normal.mulPowers (ps : List (Char × Nat)) {m : Monomial} (h : m.Normal) :
    (mulPowers ps m).Normal := by
  induction ps with
  | nil => exact h
  | cons p rest ih => exact ih.mulPower p.1 p.2

/-- Products of powers are in normal form, whatever the powers are. -/
theorem normal_ofPowers (ps : List (Char × Nat)) : (ofPowers ps).Normal := normal_one.mulPowers ps

theorem Normal.mul (a : Monomial) {b : Monomial} (h : b.Normal) : (a.mul b).Normal :=
  h.mulPowers a.powers

end Monomial

end Expansion
