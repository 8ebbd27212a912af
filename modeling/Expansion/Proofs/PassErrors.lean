import Expansion.Proofs.SummandTerms

/-!
# Where the passes stop

**Theorem (`sign_refuses_stranded`).** The first pass fails exactly if there is a sign that no
operand follows, and blames the first of those.

**Theorem (`Within.exists_mul?`).** The second pass multiplies polynomials, and the reader of sums
multiplies terms. If the monomials of the polynomials divide those of the terms, their exponents are
too large together only if those of the terms are.

What the second and the third pass do from some item on depends on the items before it only through
the last value and the operators between sums (`resume`).
-/

namespace Expansion

/-! ## Signs that no operand follows -/

namespace Item

variable {α : Type}

/-- Whether no operand follows: there are only signs up to a `*` or to the end. -/
def dangles : List (Item α) → Bool
  | [] => true
  | operand _ :: _ => false
  | operator op _ :: rest => op == .mul || dangles rest

/-- The first sign that no operand follows. A plus or minus is a sign where an operand may be
next. -/
def stranded? (operandNext : Bool) : List (Item α) → Option (Operator × Span)
  | [] => none
  | operand _ :: rest => stranded? false rest
  | operator op place :: rest =>
    if operandNext && op != .mul && dangles rest then some (op, place) else stranded? true rest

section

variable {op : Operator} {place : Span} {rest : List (Item α)}

theorem dangles_sign (ne : op ≠ .mul) : dangles (operator op place :: rest) = dangles rest := by
  rw [dangles, beq_eq_false_iff_ne.2 ne, Bool.false_or]

theorem stranded?_sign (ne : op ≠ .mul) : stranded? true (operator op place :: rest) =
    if dangles rest then some (op, place) else stranded? true rest := by
  rw [stranded?, bne_iff_ne.2 ne, Bool.and_self, Bool.true_and]

/-- No operand follows signs alone. -/
theorem dangles_of_signs {items : List (Item α)} (signs : ∀ item ∈ items, item.isPlusMinus = true) :
    dangles items = true := by
  induction items with
  | nil => rfl
  | cons item items ih =>
    obtain ⟨first, others⟩ := List.forall_mem_cons.1 signs
    cases item with
    | operator op place => rw [dangles_sign (bne_iff_ne.1 first), ih others]
    | operand a => cases first

theorem eq_nil_of_signs {items : List (Item α)} (signs : ∀ item ∈ items, item.isPlusMinus = true)
    (followed : stranded? true items = none) : items = [] := by
  cases items with
  | nil => rfl
  | cons item items =>
    obtain ⟨first, others⟩ := List.forall_mem_cons.1 signs
    cases item with
    | operator op place =>
      rw [stranded?_sign (bne_iff_ne.1 first), if_pos (dangles_of_signs others)] at followed
      cases followed
    | operand a => cases first

/-- After an operand, and if it is a `*`, an operator is no sign. -/
theorem stranded?_of_not_sign {operandNext : Bool} (h : (operandNext && op != .mul) = false) :
    stranded? operandNext (operator op place :: rest) = stranded? true rest := by
  rw [stranded?, h, Bool.false_and, if_neg Bool.false_ne_true]

end

end Item

/-! ## Exponents in the passes -/

/-- The monomial is in normal form, and none of its exponents is above that in `n`. -/
structure Monomial.Divides (m n : Monomial) : Prop where
  normal : m.Normal
  le : ∀ x, m.exponent x ≤ n.exponent x

theorem Monomial.Divides.mul {a b m n : Monomial} (ha : a.Divides m) (hb : b.Divides n) :
    (a.mul b).Divides (m.mul n) where
  normal := hb.normal.mul a
  le x := by
    rw [exponent_mul, exponent_mul]
    exact Nat.add_le_add (ha.le x) (hb.le x)

/-- All monomials of the polynomial divide `m`. -/
def Polynomial.Within (p : Polynomial) (m : Monomial) : Prop := ∀ t ∈ p.terms, t.monomial.Divides m

namespace Polynomial

variable {p q : Polynomial} {s t u : Term} {m : Monomial} {ts : List Term}

theorem within_reduce (h : ∀ t ∈ ts, t.monomial.Divides m) : (reduce ts).Within m :=
  forall_monomial_reduce (P := (Monomial.Divides · m))
    ⟨Monomial.normal_one, fun _ => Nat.zero_le _⟩ h

theorem within_ofTerm (h : t.monomial.Normal) : (ofTerm t).Within t.monomial :=
  within_reduce (List.forall_mem_singleton.2 ⟨h, fun _ => le_rfl⟩)

theorem Within.withSign (h : p.Within m) (negative : Bool) : (p.withSign negative).Within m := by
  cases negative with
  | false => exact h
  | true => exact within_reduce (List.forall_mem_map.2 h)

/-- Polynomials whose monomials divide those of two terms have a product if the terms have one. -/
theorem Within.exists_mul? (hp : p.Within s.monomial) (hq : q.Within t.monomial)
    (normal : t.monomial.Normal) (product : s.mul? t = some u) :
    ∃ r, p.mul? q = some r ∧ r.Within u.monomial := by
  obtain ⟨rfl, fits⟩ := Term.mul?_eq_some product
  have small := (normal.fits_mul_iff s.monomial).1 fits
  obtain ⟨r, eq⟩ := Polynomial.exists_mul? (fun b hb => (hq b hb).normal) fun a ha b hb x =>
    (Nat.add_le_add ((hp a ha).le x) ((hq b hb).le x)).trans (small x)
  refine ⟨r, eq, ?_⟩
  obtain ⟨ts, products, rfl⟩ := mul?_eq_some eq
  exact within_reduce (forall_monomial_products
    (P := (Monomial.Divides · (s.monomial.mul t.monomial)))
    (fun a ha b hb _ => (hp a ha).mul (hq b hb)) products)

end Polynomial

theorem Value.within_withSigns {v : Value} {m : Monomial} (h : v.polynomial.Within m)
    (signs : Option Signs) : (v.withSigns signs).polynomial.Within m := by
  cases signs with
  | none => exact h
  | some s => exact h.withSign s.negative

namespace Operations

open Item

/-- The sign that the first pass refuses: the first of those just before the items, if no operand
follows them, and else the first in the items that no operand follows. -/
def refused? (operandNext : Bool) (signs : Option Signs) (items : List (Item Value)) :
    Option (Operator × Span) :=
  match signs with
  | some s => if dangles items then some (s.first, s.place) else stranded? operandNext items
  | none => stranded? operandNext items

/-- The computation ends with an operator that lacks its operand, if there is one given, and else
with a result. -/
def Refuses {β : Type} (x : Except Error β) : Option (Operator × Span) → Prop
  | some (op, place) => x = .error (.missingOperand op place)
  | none => ∃ b, x = .ok b

theorem Refuses.map {β γ : Type} {x : Except Error β} {o : Option (Operator × Span)}
    (h : Refuses x o) (f : β → γ) : Refuses (x >>= fun b => .ok (f b)) o := by
  cases o with
  | some sign =>
    rw [show x = _ from h]
    rfl
  | none =>
    obtain ⟨b, eq⟩ := h
    exact ⟨f b, by rw [eq]; rfl⟩

theorem sign_plusMinus {op : Operator} (ne : op ≠ .mul) (signs : Option Signs) (place : Span)
    (rest : List (Item Value)) : sign true signs (.operator op place :: rest) =
      sign true (some (Signs.add op place signs)) rest := by
  cases op with
  | mul => exact absurd rfl ne
  | add | sub => rfl

/-- The first pass fails only because of signs that no operand follows, and with the first of
them. -/
theorem sign_refuses {operandNext : Bool} {signs : Option Signs} (items : List (Item Value))
    (next : signs ≠ none → operandNext = true) :
    Refuses (sign operandNext signs items) (refused? operandNext signs items) := by
  fun_induction sign operandNext signs items with
  | case1 => exact ⟨_, rfl⟩
  | case2 => rfl
  | case3 operandNext signs v rest ih =>
    -- An operand takes the signs before it.
    have refused : refused? operandNext signs (.operand v :: rest) = refused? false none rest := by
      cases signs <;> rfl
    rw [refused]
    exact (ih fun ne => absurd rfl ne).map _
  | case4 operandNext signs op place rest is_sign ih =>
    -- A sign joins those before it.
    obtain ⟨rfl, plus_minus⟩ := Bool.and_eq_true_iff.1 is_sign
    have ne : op ≠ .mul := bne_iff_ne.1 plus_minus
    have refused : refused? true signs (.operator op place :: rest) =
        refused? true (some (Signs.add op place signs)) rest := by
      cases signs with
      | none => exact stranded?_sign ne
      | some s =>
        rw [refused?, refused?, dangles_sign ne, stranded?_sign ne]
        split <;> rfl
    rw [refused]
    exact ih fun _ => rfl
  | case5 operandNext op place rest no_sign ih =>
    -- An operator with no signs before it is left as it is.
    have refused : refused? operandNext none (.operator op place :: rest) =
        refused? true none rest := stranded?_of_not_sign (Bool.not_eq_true _ ▸ no_sign)
    rw [refused]
    exact (ih fun ne => absurd rfl ne).map _
  | case6 operandNext op place rest no_sign s =>
    -- Signs before a `*` have no operand.
    obtain rfl : op = .mul := by
      rw [next (Option.some_ne_none s), Bool.true_and, bne_iff_ne, not_not] at no_sign
      exact no_sign
    rfl

/-- The first pass fails exactly if there is a sign that no operand follows, and blames the first of
those. -/
theorem sign_refuses_stranded (items : List (Item Value)) :
    Refuses (sign true none items) (stranded? true items) :=
  sign_refuses items fun ne => absurd rfl ne

/-! ## The second and the third pass, from some item on -/

/-- What the second and the third pass make of items behind others. Of those, `sums` are multiplied
already, and `last` is a value that comes behind them. -/
def resume (sums : List (Item Value)) (last : Option Value) (items : List (Item Value)) :
    Except Error Polynomial := do
  let multiplied ← multiply last items
  addUp (sums ++ multiplied)

/-- With a value behind them, the items can be added up. -/
def Sums (sums : List (Item Value)) : Prop :=
  ∀ v, ∃ p, ∀ rest, addUp (sums ++ .operand v :: rest) = addUpFrom p v.place rest

section

variable {sums items : List (Item Value)} {u v w : Value} {op : Operator} {place : Span}

theorem sums_nil : Sums [] := fun v => ⟨v.polynomial, fun _ => rfl⟩

theorem Sums.concat (h : Sums sums) (ne : op ≠ .mul) (v : Value) (place : Span) :
    Sums (sums ++ [.operand v, .operator op place]) := by
  intro w
  obtain ⟨p, eq⟩ := h v
  have behind (rest : List (Item Value)) :
      addUp (sums ++ [.operand v, .operator op place] ++ .operand w :: rest) =
        addUpFrom p v.place (.operator op place :: .operand w :: rest) := by
    rw [List.append_assoc]
    exact eq _
  cases op with
  | mul => exact absurd rfl ne
  | add => exact ⟨p + w.polynomial, behind⟩
  | sub => exact ⟨p - w.polynomial, behind⟩

/-- A plus or minus with nothing behind it lacks its operand. -/
theorem Sums.addUp_concat (h : Sums sums) (v : Value) (op : Operator) (place : Span) :
    addUp (sums ++ [.operand v, .operator op place]) = .error (.missingOperand op place) := by
  obtain ⟨p, eq⟩ := h v
  rw [eq]
  cases op <;> rfl

theorem resume_operand (sums : List (Item Value)) (v : Value) (items : List (Item Value)) :
    resume sums none (.operand v :: items) = resume sums (some v) items := by
  rw [resume, multiply, resume]
  cases multiply (some v) items <;> rfl

theorem resume_operator (ne : op ≠ .mul) (sums : List (Item Value)) (v : Value) (place : Span)
    (items : List (Item Value)) : resume sums (some v) (.operator op place :: items) =
      resume (sums ++ [.operand v, .operator op place]) none items := by
  rw [resume, multiply_operator ne, resume]
  cases multiply none items with
  | error e => rfl
  | ok ks =>
    show addUp (sums ++ _) = addUp (sums ++ _ ++ ks)
    rw [List.append_assoc]
    rfl

theorem resume_mul (product : Value.mul place v w = .ok u) :
    resume sums (some v) (.operator .mul place :: .operand w :: items) =
      resume sums (some u) items := by
  rw [resume, multiply, product]
  rfl

/-- A `*` without a value before it lacks an operand. -/
theorem resume_mul_none (sums : List (Item Value)) (place : Span) (items : List (Item Value)) :
    resume sums none (.operator .mul place :: items) = .error (.missingOperand .mul place) := by
  match items with
  | [] | .operand _ :: _ | .operator _ _ :: _ => rfl

/-- A `*` without a value behind it lacks an operand. -/
theorem resume_mul_of_not_operand (sums : List (Item Value)) (last : Option Value) (place : Span)
    (free : ∀ w rest, items ≠ .operand w :: rest) :
    resume sums last (.operator .mul place :: items) = .error (.missingOperand .mul place) := by
  match items with
  | [] | .operator _ _ :: _ => rfl
  | .operand w :: rest => exact absurd rfl (free w rest)

end

end Operations

end Expansion
