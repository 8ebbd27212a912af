import Expansion.Expression.Operations
import Expansion.Proofs.MonomialReader
import Expansion.Proofs.Phrase

/-!
# The passes respect arithmetic

**Theorem (`combine_computes`).** The passes of `Operations` resolve the formula of a sum of products
of signed operands.

Reading the operands leaves the layers of a phrase as they are. The first pass then takes signed
operands to operands, the second takes products of operands to operands, and the third adds up what
is left. Each is a statement about one layer, which `Pass.Takes` carries through the layers around
it.
-/

namespace Expansion

open Phrase

/-- The operand is written for a monomial, or it is a value that stands for the formula. -/
inductive Operand.Stands {ν : Type} (S : ν → Formula → Prop) : Operand ν → Formula → Prop
  | run {r : Run} {c : Nat} {ps : List (Char × Nat)} :
      WritesMonomial c ps r.tokens → Stands S (.run r) (.monomial c ps)
  | value {v : ν} {f : Formula} : S v f → Stands S (.value v) f

/-- The formula is resolved to the polynomial of the value. -/
structure Value.StandsFor (v : Value) (f : Formula) : Prop where
  lettered : f.Lettered
  resolve : f.resolve = some v.polynomial

/-- The formula has a group, and is resolved to the polynomial of the value. -/
structure Value.StandsForGroup (v : Value) (f : Formula) : Prop extends v.StandsFor f where
  grouped : f.depth ≠ 0

namespace Operations

variable {f : Formula}

/-! ## Reading the operands -/

theorem ofOperand_yields {a : Operand Value} (h : a.Stands Value.StandsForGroup f) :
    Yields f.Resolves (Value.ofOperand a) (Value.StandsFor · f) := by
  cases h with
  | run h =>
    have lettered := lettered_of_writesMonomial h
    apply (Yields.mono (Term.ofTokens_computes h) ?_ fun _ => id).bind
    · intro t ht
      exact .ok ⟨lettered, Option.map_eq_some_iff.2 ⟨t, ht, rfl⟩⟩
    · rintro ⟨p, resolve⟩
      obtain ⟨t, eq, -⟩ := Option.map_eq_some_iff.1 resolve
      exact ⟨t, eq⟩
  | value h => exact .ok h.toStandsFor

/-- The operands are read one by one. -/
def operandPass : Pass (Operand Value) Value where
  run items := items.mapM (·.mapM Value.ofOperand)
  after items := items.mapM (·.mapM Value.ofOperand)
  splits _ := True
  after_nil := rfl
  after_operator _ _ rest := by
    rw [List.mapM_cons]
    rfl

theorem operandPass_operator (op : Operator) (place : Span)
    (rest : List (Item (Operand Value))) : operandPass.run (.operator op place :: rest) =
      operandPass.run rest >>= fun js => .ok (.operator op place :: js) :=
  operandPass.after_operator trivial place rest

theorem operandPass_operand (a : Operand Value) (rest : List (Item (Operand Value))) :
    operandPass.run (.operand a :: rest) = Value.ofOperand a >>= fun v =>
      operandPass.run rest >>= fun js => .ok (.operand v :: js) := by
  show (Item.operand a :: rest).mapM _ = _
  rw [List.mapM_cons, Item.mapM]
  cases Value.ofOperand a <;> rfl

theorem operandPass_takes :
    operandPass.Takes (Signed (Operand.Stands Value.StandsForGroup)) (Signed Value.StandsFor) := by
  intro f items h
  refine ⟨operandPass.run items, ?_, fun _ _ => List.mapM_append⟩
  induction h with
  | operand h =>
    rw [operandPass_operand]
    exact (ofOperand_yields h).bind fun v hv => .ok (.operand hv)
  | plus _ ih =>
    rw [operandPass_operator]
    exact Yields.bind ih fun js hjs => .ok (.plus hjs)
  | minus _ ih =>
    rw [operandPass_operator]
    exact (Yields.mono ih Formula.Resolves.minus fun _ => id).bind fun js hjs => .ok (.minus hjs)

/-! ## The first pass -/

theorem negative_add (place : Span) (signs : Option Signs) :
    (Signs.add .add place signs).negative = signs.any (·.negative) := by
  cases signs with
  | none => rfl
  | some s => exact Bool.bne_false s.negative

theorem negative_sub (place : Span) (signs : Option Signs) :
    (Signs.add .sub place signs).negative = !signs.any (·.negative) := by
  cases signs with
  | none => rfl
  | some s => exact Bool.bne_true s.negative

theorem standsFor_withSign {v : Value} (h : v.StandsFor f) (place : Span) (negative : Bool) :
    Value.StandsFor ⟨v.polynomial.withSign negative, place⟩ (f.withSign negative) := by
  cases negative with
  | false => exact ⟨h.lettered, h.resolve⟩
  | true => exact ⟨h.lettered, Option.map_eq_some_iff.2 ⟨_, h.resolve, rfl⟩⟩

theorem exists_sign (signs : Option Signs) {items : List (Item Value)}
    (h : Signed Value.StandsFor f items) :
    ∃ v : Value, v.StandsFor (f.withSign (signs.any (·.negative))) ∧ ∀ rest,
      sign true signs (items ++ rest) =
        sign false none rest >>= fun ks => .ok (.operand v :: ks) := by
  induction h generalizing signs with
  | @operand f v h =>
    refine ⟨v.withSigns signs, ?_, fun rest => rfl⟩
    cases signs with
    | none => exact h
    | some s => exact standsFor_withSign h _ s.negative
  | @plus f items place _ ih =>
    obtain ⟨v, hv, eq⟩ := ih (some (Signs.add .add place signs))
    rw [Option.any_some, negative_add] at hv
    have lettered : f.Lettered := Formula.lettered_withSign.1 hv.lettered
    exact ⟨v, ⟨Formula.lettered_withSign.2 lettered,
      (Formula.resolve_plus_withSign f _).trans hv.resolve⟩, eq⟩
  | @minus f items place _ ih =>
    obtain ⟨v, hv, eq⟩ := ih (some (Signs.add .sub place signs))
    rw [Option.any_some, negative_sub] at hv
    have lettered : f.Lettered := Formula.lettered_withSign.1 hv.lettered
    exact ⟨v, ⟨Formula.lettered_withSign.2 lettered,
      (Formula.resolve_minus_withSign lettered _).trans hv.resolve⟩, eq⟩

/-- The first pass splits at every operator. -/
def signPass : Pass Value Value where
  run := sign true none
  after := sign false none
  splits _ := True
  after_nil := rfl
  after_operator _ _ _ := rfl

theorem signPass_takes : signPass.Takes (Signed Value.StandsFor) (Single Value.StandsFor) := by
  intro f items h
  obtain ⟨v, hv, eq⟩ := exists_sign none h
  exact ⟨.ok [.operand v], .ok (.operand hv), fun rest _ => eq rest⟩

/-! ## The second pass -/

theorem mul_yields {v w : Value} {g : Formula} (hv : v.StandsFor f) (hw : w.StandsFor g)
    (place : Span) :
    Yields (f.mul g).Resolves (v.mul place w) (Value.StandsFor · (f.mul g)) := by
  have resolve : (f.mul g).resolve = v.polynomial.mul? w.polynomial := by
    rw [Formula.resolve, hv.resolve, hw.resolve]
    rfl
  rw [Value.mul]
  split
  · next p eq => exact .ok ⟨⟨hv.lettered, hw.lettered⟩, resolve.trans eq⟩
  · next no_product =>
    refine .tooLarge ?_
    rintro ⟨p, product⟩
    cases (resolve.trans no_product).symm.trans product

theorem multiply_operator {op : Operator} (ne : op ≠ .mul) (last : Option Value) (place : Span)
    (rest : List (Item Value)) :
    multiply last (.operator op place :: rest) = multiply none rest >>= fun ks =>
      .ok (last.toList.map .operand ++ .operator op place :: ks) := by
  cases op with
  | mul => exact absurd rfl ne
  | add | sub => rfl

theorem exists_multiply {items : List (Item Value)}
    (h : Product (Single Value.StandsFor) f items) :
    ∃ x, Yields f.Resolves x (Value.StandsFor · f) ∧ ∀ rest,
      multiply none (items ++ rest) = x >>= fun v => multiply (some v) rest := by
  induction h with
  | factor h =>
    obtain @⟨_, v, h⟩ := h
    refine ⟨.ok v, .ok h, ?_⟩
    intro rest
    show multiply none (.operand v :: rest) = multiply (some v) rest
    rw [multiply]
    cases multiply (some v) rest <;> rfl
  | @mul f g items others place _ operand ih =>
    obtain ⟨x, yields, eq⟩ := ih
    obtain @⟨_, w, hw⟩ := operand
    refine ⟨x >>= fun v => v.mul place w, ?_, ?_⟩
    · exact (yields.mono (·.mul.1) fun _ => id).bind fun v hv => mul_yields hv hw place
    · intro rest
      rw [List.append_assoc, eq, bind_assoc]
      rfl

/-- The second pass splits at plus and minus. -/
def multiplyPass : Pass Value Value where
  run := multiply none
  after := multiply none
  splits op := op ≠ .mul
  after_nil := rfl
  after_operator ne := multiply_operator ne none

theorem multiplyPass_takes :
    multiplyPass.Takes (Product (Single Value.StandsFor)) (Single Value.StandsFor) := by
  intro f items h
  obtain ⟨x, yields, eq⟩ := exists_multiply h
  refine ⟨x >>= fun v => .ok [.operand v], yields.bind fun v hv => .ok (.operand hv), ?_⟩
  intro rest ends
  show multiply none (items ++ rest) = _
  rw [eq, bind_assoc]
  congr 1
  funext v
  cases ends with
  | nil => rfl
  | operator ne =>
    show multiply (some v) _ = multiply none _ >>= _
    rw [multiply_operator ne, multiply_operator ne, bind_assoc]
    rfl

/-! ## The third pass -/

theorem exists_addUp {items : List (Item Value)} (h : Sum (Single Value.StandsFor) f items) :
    ∃ p, f.resolve = some p ∧ ∀ rest, ∃ last, addUp (items ++ rest) = addUpFrom p last rest := by
  induction h with
  | product h =>
    obtain @⟨_, v, h⟩ := h
    exact ⟨v.polynomial, h.resolve, fun rest => ⟨v.place, rfl⟩⟩
  | add _ operand ih =>
    obtain ⟨p, hp, eq⟩ := ih
    obtain @⟨_, v, hv⟩ := operand
    refine ⟨p + v.polynomial, ?_, fun rest => ⟨v.place, ?_⟩⟩
    · rw [Formula.resolve, hp, hv.resolve]
      rfl
    · obtain ⟨last, eq⟩ := eq _
      rw [List.append_assoc, eq]
      rfl
  | sub _ operand ih =>
    obtain ⟨p, hp, eq⟩ := ih
    obtain @⟨_, v, hv⟩ := operand
    refine ⟨p - v.polynomial, ?_, fun rest => ⟨v.place, ?_⟩⟩
    · rw [Formula.resolve, hp, hv.resolve]
      rfl
    · obtain ⟨last, eq⟩ := eq _
      rw [List.append_assoc, eq]
      rfl

/-- A sum of products of signed operands is worked out to what its formula is resolved to. -/
theorem combine_computes {items : List (Item (Operand Value))}
    (h : Sum (Product (Signed (Operand.Stands Value.StandsForGroup))) f items) :
    Computes f.resolve (combine items) := by
  have values := ((operandPass_takes.product trivial).sum trivial trivial).run h
  apply values.bind
  intro items h
  have signed := ((signPass_takes.product trivial).sum trivial trivial).run h
  apply signed.bind
  intro items h
  have multiplied := (multiplyPass_takes.sum nofun nofun).run h
  apply multiplied.bind
  intro items h
  obtain ⟨p, hp, eq⟩ := exists_addUp h
  obtain ⟨last, eq⟩ := eq []
  rw [List.append_nil] at eq
  rw [eq]
  exact .ok hp

end Operations

end Expansion
