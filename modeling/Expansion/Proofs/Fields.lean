import Expansion.Proofs.GuardedTerms

/-!
# Terms with three fields

A term can be kept in three fields: the coefficient of its names, their exponents, and the value of
a constant term. Not every choice of the fields is a term: a constant term has the coefficient 0,
and a variable term has the constant 0 and exponents from 1 to `maxExponent` (`WellShaped`).

The operations on terms are written down here once more, each filling in the fields of its result.
They are the same operations (`fields_neg`, `fields_merge?`, `fields_mul?`, `fields_evaluate?`), and
whatever is *obtained* by them has one of the two shapes.

**Theorem (`collect?_eq`).** Exponents can be counted one after another, giving up at the first one
that gets too large: the counting comes to an end exactly if the product of all powers fits.

**Theorem (`Obtained.wellShaped`).** No operation mixes the shapes, keeps an exponent of 0 or lets
one pass the limit.
-/

namespace Expansion

namespace Monomial

theorem total_append (x : Char) (ps qs : List (Char × Nat)) :
    total x (ps ++ qs) = total x ps + total x qs := by
  induction ps with
  | nil => exact (Nat.zero_add _).symm
  | cons p ps ih =>
    obtain ⟨y, d⟩ := p
    rw [List.cons_append, total_cons, total_cons, ih]
    split <;> omega

/-- Exponents of 0 do not count. -/
theorem total_filter (x : Char) (ps : List (Char × Nat)) :
    total x (ps.filter (·.2 ≠ 0)) = total x ps := by
  induction ps with
  | nil => rfl
  | cons p ps ih =>
    obtain ⟨y, d⟩ := p
    by_cases zero : d = 0
    · rw [List.filter_cons_of_neg (by simpa using zero), total_cons, ih, zero, Nat.zero_add, ite_self]
    · rw [List.filter_cons_of_pos (by simpa using zero), total_cons, total_cons, ih]

theorem ofPowers_append (ps qs : List (Char × Nat)) :
    ofPowers (ps ++ qs) = mulPowers ps (ofPowers qs) := List.foldr_append

/-- Counted powers without those of exponent 0 are their product. -/
theorem powers_ofPowers {ps : List (Char × Nat)} (sorted : ps.Pairwise (·.1 < ·.1)) :
    (ofPowers ps).powers = ps.filter (·.2 ≠ 0) := by
  have normal : Normal ⟨ps.filter (·.2 ≠ 0)⟩ :=
    ⟨sorted.filter _, fun p hp => Nat.pos_of_ne_zero (by simpa using List.of_mem_filter hp)⟩
  have same := (normal_ofPowers ps).ext normal fun x =>
    (exponent_ofPowers ps x).trans (total_filter x ps).symm
  rw [same]

end Monomial

/-- The coefficient of a variable term, its names with their exponents, and the value of a constant
term. -/
structure Fields where
  coefficient : Int
  powers : List (Char × Nat)
  constant : Int
deriving DecidableEq

/-- The fields of a term. -/
def Term.fields (t : Term) : Fields := ⟨t.coefficient, t.monomial.powers, t.constantValue⟩

namespace Fields

/-! ## Operations -/

/-- The fields of a constant term. -/
def ofConstant (n : Int) : Fields := ⟨0, [], n⟩

/-- The names of the powers with their exponents added up, where some are already counted. There is
nothing as soon as an exponent gets too large. Exponents of 0 are left out in the end. -/
def collect? (counted : List (Char × Nat)) : List (Char × Nat) → Option (List (Char × Nat))
  | [] => some (counted.filter (·.2 ≠ 0))
  | (x, e) :: ps =>
    if Monomial.total x counted + e ≤ maxExponent then collect? (Monomial.raise x e counted) ps
    else none

/-- The fields of a term with the given factor and powers. -/
def ofPowers? (factor : Int) (ps : List (Char × Nat)) : Option Fields :=
  (collect? [] ps).map fun powers =>
    if powers.isEmpty then ofConstant factor else ⟨factor, powers, 0⟩

/-- Whether there are no names. -/
def isConstant (f : Fields) : Bool := f.powers.isEmpty

/-- The value of a constant term, or the coefficient of a variable term. -/
def factor (f : Fields) : Int := if f.isConstant then f.constant else f.coefficient

/-- The fields with another factor. -/
def withFactor (n : Int) (f : Fields) : Fields :=
  if f.isConstant then ofConstant n else ⟨n, f.powers, 0⟩

/-- The opposite term. -/
def neg (f : Fields) : Fields := f.withFactor (-f.factor)

/-- The sum of two terms with the same names. -/
def merge? (f g : Fields) : Option Fields :=
  if f.powers = g.powers then
    let sum := f.factor + g.factor
    some (if sum = 0 then ofConstant 0 else f.withFactor sum)
  else none

/-- The product of two terms: all their powers together are counted. -/
def mul? (f g : Fields) : Option Fields :=
  ofPowers? (f.factor * g.factor) (f.powers ++ g.powers)

/-- The term with the values of the bound names put in. -/
def evaluate? (b : Bindings) (f : Fields) : Option Fields :=
  if f.isConstant then some f
  else ofPowers? (f.coefficient * Monomial.boundFactor b ⟨f.powers⟩)
    (f.powers.filter fun (x, _) => (b.get? x).isNone)

/-- What can be made by operations on terms. -/
inductive Obtained : Fields → Prop
  | constant (n : Int) : Obtained (ofConstant n)
  | ofPowers {n : Int} {ps : List (Char × Nat)} {f : Fields} : ofPowers? n ps = some f → Obtained f
  | neg {f : Fields} : Obtained f → Obtained f.neg
  | merge {f g h : Fields} : Obtained f → Obtained g → f.merge? g = some h → Obtained h
  | mul {f g h : Fields} : Obtained f → Obtained g → f.mul? g = some h → Obtained h
  | evaluate {b : Bindings} {f g : Fields} : Obtained f → f.evaluate? b = some g → Obtained g

/-! ## Shapes -/

/-- The fields are those of a constant term, or those of a variable term: one of the two numbers is
0, and there are names exactly in a variable term, in order and with exponents in range. -/
inductive WellShaped : Fields → Prop
  | constant (n : Int) : WellShaped ⟨0, [], n⟩
  | named (n : Int) {ps : List (Char × Nat)} : ps ≠ [] → ps.Pairwise (·.1 < ·.1) →
      (∀ p ∈ ps, 1 ≤ p.2 ∧ p.2 ≤ 1000) → WellShaped ⟨n, ps, 0⟩

/-- Counting comes to an end exactly if the product of the powers fits. -/
theorem collect?_eq {counted : List (Char × Nat)} (ps : List (Char × Nat))
    (sorted : counted.Pairwise (·.1 < ·.1))
    (small : ∀ x, Monomial.total x counted ≤ maxExponent) : collect? counted ps =
      if (Monomial.ofPowers (counted ++ ps)).fits then
        some (Monomial.ofPowers (counted ++ ps)).powers
      else none := by
  induction ps generalizing counted with
  | nil =>
    have fits : (Monomial.ofPowers counted).fits = true :=
      (Monomial.normal_ofPowers counted).fits_iff.2 fun x => by
        rw [Monomial.exponent_ofPowers]
        exact small x
    rw [List.append_nil, if_pos fits, Monomial.powers_ofPowers sorted, collect?]
  | cons p ps ih =>
    obtain ⟨x, e⟩ := p
    rw [collect?]
    split
    · next le =>
      -- The power is counted, and what is counted still fits.
      have small' : ∀ y, Monomial.total y (Monomial.raise x e counted) ≤ maxExponent := by
        intro y
        rw [Monomial.total_raise]
        split
        · next eq =>
          subst eq
          omega
        · have := small y
          omega
      have same : Monomial.ofPowers (Monomial.raise x e counted ++ ps) =
          Monomial.ofPowers (counted ++ (x, e) :: ps) := by
        refine (Monomial.normal_ofPowers _).ext (Monomial.normal_ofPowers _) fun y => ?_
        simp only [Monomial.exponent_ofPowers, Monomial.total_append, Monomial.total_raise,
          Monomial.total_cons]
        split <;> omega
      rw [ih (Monomial.sorted_raise x e sorted) small', same]
    · next gt =>
      -- The exponent is too large, whatever the powers behind it are.
      have large : ¬(Monomial.ofPowers (counted ++ (x, e) :: ps)).fits = true := fun fits => by
        have le := (Monomial.normal_ofPowers _).fits_iff.1 fits x
        rw [Monomial.exponent_ofPowers, Monomial.total_append, Monomial.total_cons, if_pos rfl]
          at le
        omega
      rw [if_neg large]

theorem collect?_nil (ps : List (Char × Nat)) : collect? [] ps =
    if (Monomial.ofPowers ps).fits then some (Monomial.ofPowers ps).powers else none :=
  collect?_eq ps .nil fun _ => Nat.zero_le _

namespace WellShaped

variable {f g h : Fields}

theorem ofPowers? {n : Int} {ps : List (Char × Nat)} (eq : ofPowers? n ps = some f) :
    f.WellShaped := by
  rw [Fields.ofPowers?, collect?_nil] at eq
  obtain ⟨powers, counted, rfl⟩ := Option.map_eq_some_iff.1 eq
  split at counted
  · next fits =>
    cases counted
    have normal := Monomial.normal_ofPowers ps
    split
    · exact .constant n
    · next names =>
      refine .named n (fun nil => names (List.isEmpty_iff.2 nil)) normal.sorted fun p hp => ?_
      exact ⟨normal.positive p hp, of_decide_eq_true (List.all_eq_true.1 fits p hp)⟩
  · cases counted

theorem withFactor (hf : f.WellShaped) (n : Int) : (f.withFactor n).WellShaped := by
  cases hf with
  | constant m => exact .constant n
  | named m ne sorted range =>
    have names : isConstant ⟨m, _, 0⟩ = false := List.isEmpty_eq_false_iff.2 ne
    rw [Fields.withFactor, names]
    exact .named n ne sorted range

theorem merge? (hf : f.WellShaped) (eq : f.merge? g = some h) : h.WellShaped := by
  rw [Fields.merge?] at eq
  split at eq
  · cases eq
    split
    · exact .constant 0
    · exact hf.withFactor _
  · cases eq

theorem evaluate? {b : Bindings} (hf : f.WellShaped) (eq : f.evaluate? b = some g) :
    g.WellShaped := by
  rw [Fields.evaluate?] at eq
  split at eq
  · cases eq
    exact hf
  · exact ofPowers? eq

end WellShaped

/-- What is obtained by operations on terms has the shape of a term. -/
theorem Obtained.wellShaped {f : Fields} (h : Obtained f) : f.WellShaped := by
  induction h with
  | constant n => exact .constant n
  | ofPowers eq => exact .ofPowers? eq
  | neg _ ih => exact ih.withFactor _
  | merge _ _ eq ih _ => exact ih.merge? eq
  | mul _ _ eq _ _ => exact .ofPowers? eq
  | evaluate _ eq ih => exact ih.evaluate? eq

end Fields

/-! ## The fields of the results -/

namespace Term

open Fields

variable {s t : Term}

theorem fields_mk (n : Int) (m : Monomial) :
    fields ⟨n, m⟩ = if m.powers.isEmpty then ofConstant n else ⟨n, m.powers, 0⟩ := by
  obtain ⟨powers⟩ := m
  cases powers <;> rfl

@[simp] theorem isConstant_fields (t : Term) : t.fields.isConstant = t.isConstant := rfl

@[simp] theorem factor_fields (t : Term) : t.fields.factor = t.factor := by
  obtain ⟨n, ⟨powers⟩⟩ := t
  cases powers <;> rfl

theorem fields_withFactor (n : Int) (t : Term) :
    fields ⟨n, t.monomial⟩ = t.fields.withFactor n := fields_mk n t.monomial

theorem fields_ofPowers? (n : Int) (ps : List (Char × Nat)) :
    (ofPowers? n ps).map fields = Fields.ofPowers? n ps := by
  rw [ofPowers?, Fields.ofPowers?, collect?_nil]
  split
  · exact congrArg some (fields_mk n _)
  · rfl

theorem fields_neg (t : Term) : (-t).fields = t.fields.neg := by
  rw [neg, factor_fields]
  exact fields_withFactor (-t.factor) t

theorem fields_merge? (s t : Term) : (s.merge? t).map fields = s.fields.merge? t.fields := by
  have same : s.sameNames t = true ↔ s.fields.powers = t.fields.powers := by
    rw [sameNames, beq_iff_eq, Monomial.mk.injEq]
    rfl
  rw [merge?, Fields.merge?, factor_fields, factor_fields]
  by_cases names : s.sameNames t = true
  · rw [if_pos names, if_pos (same.1 names), Option.map_some]
    refine congrArg some ?_
    by_cases cancel : s.factor + t.factor = 0
    · rw [if_pos cancel, if_pos cancel]
      rfl
    · rw [if_neg cancel, if_neg cancel, fields_withFactor]
  · rw [if_neg names, if_neg (mt same.2 names), Option.map_none]

/-- A term is valid if its fields have the shape of one. -/
theorem wellShaped_fields_iff : t.fields.WellShaped ↔ t.Valid := by
  obtain ⟨n, ⟨powers⟩⟩ := t
  constructor
  · intro h
    rw [fields_mk] at h
    split at h
    · next no_names =>
      obtain rfl := List.isEmpty_iff.1 no_names
      exact Monomial.valid_one
    · cases h with
      | constant => exact Monomial.valid_one
      | named _ ne sorted range =>
        exact ⟨⟨sorted, fun p hp => (range p hp).1⟩,
          List.all_eq_true.2 fun p hp => decide_eq_true (range p hp).2⟩
  · intro h
    rw [fields_mk]
    split
    · exact .constant n
    · next names =>
      refine .named n (fun nil => names (List.isEmpty_iff.2 nil)) h.sorted fun p hp => ?_
      exact ⟨h.positive p hp, of_decide_eq_true (List.all_eq_true.1 h.fits p hp)⟩

theorem fields_mul? (ht : t.Valid) : (s.mul? t).map fields = s.fields.mul? t.fields := by
  have product : Monomial.ofPowers (s.fields.powers ++ t.fields.powers) =
      s.monomial.mul t.monomial := by
    show Monomial.ofPowers (s.monomial.powers ++ t.monomial.powers) = _
    rw [Monomial.ofPowers_append, ht.toNormal.ofPowers_powers]
    rfl
  rw [Fields.mul?, ← fields_ofPowers?, factor_fields, factor_fields, ofPowers?, product]
  rfl

theorem fields_evaluate? (b : Bindings) (t : Term) :
    (t.evaluate? b).map fields = t.fields.evaluate? b := by
  rw [evaluate?, Fields.evaluate?, isConstant_fields]
  split
  · rfl
  · next names =>
    have coefficient : t.fields.coefficient = t.factor := if_neg names
    rw [fields_ofPowers?, coefficient]
    rfl

end Term

end Expansion
