import Expansion.Expression.Resolution
import Expansion.Proofs.Arrangement

/-!
# The value of a sequence of items

A sequence of items is read as a sum of terms if all its operands are runs, and otherwise it goes
through the passes of `Operations`. All its operands are runs if its formula has no group.

**Theorem (`valueOf_computes`).** The value of a sum of products of signed operands is the polynomial
of its formula.

**Theorem (`arranged_of_valueOf`).** Items that have a value are arranged, or there are none.
-/

namespace Expansion

variable {ν : Type}

/-! ## Phrases whose operands are runs -/

theorem Item.isSome_runs?_append (items others : List (Item (Operand ν))) (op : Operator)
    (place : Span) : (runs? (items ++ .operator op place :: others)).isSome =
      ((runs? items).isSome && (runs? others).isSome) := by
  rw [runs?, runs?, runs?, List.mapM_append, List.mapM_cons]
  cases items.mapM (·.mapM Operand.run?) with
  | none => rfl
  | some js => cases others.mapM (·.mapM Operand.run?) <;> rfl

namespace Phrase

variable {F : Phrase (Operand ν)} {G : Phrase (Operand Empty)}

/-- Phrases of the first kind whose operands are all runs are phrases of the second. -/
def Restricts (F : Phrase (Operand ν)) (G : Phrase (Operand Empty)) : Prop :=
  ∀ f items runs, F f items → Item.runs? items = some runs → G f runs

theorem exists_runs_append {items others : List (Item (Operand ν))} {op : Operator} {place : Span}
    {runs : List (Item (Operand Empty))}
    (h : Item.runs? (items ++ .operator op place :: others) = some runs) :
    ∃ js ks, Item.runs? items = some js ∧ Item.runs? others = some ks ∧
      runs = js ++ .operator op place :: ks := by
  rw [Item.runs?, List.mapM_append] at h
  obtain ⟨js, left, h⟩ := Option.bind_eq_some_iff.1 h
  obtain ⟨ks, right, h⟩ := Option.bind_eq_some_iff.1 h
  obtain ⟨ls, others_runs, rfl⟩ := Item.runs?_operator right
  exact ⟨js, ls, left, others_runs, (Option.some.inj h).symm⟩

theorem restricts_signed (S : ν → Formula → Prop) (S' : Empty → Formula → Prop) :
    Restricts (Signed (Operand.Stands S)) (Signed (Operand.Stands S')) := by
  intro f items runs h all
  induction h generalizing runs with
  | operand h =>
    obtain ⟨r, rest, rfl, all_rest, rfl⟩ := Item.runs?_operand all
    cases all_rest
    cases h with
    | run h => exact .operand (.run h)
  | plus _ ih =>
    obtain ⟨rest, all_rest, rfl⟩ := Item.runs?_operator all
    exact .plus (ih rest all_rest)
  | minus _ ih =>
    obtain ⟨rest, all_rest, rfl⟩ := Item.runs?_operator all
    exact .minus (ih rest all_rest)

theorem Restricts.product (h : Restricts F G) : Restricts (Product F) (Product G) := by
  intro f items runs phrase all
  induction phrase generalizing runs with
  | factor phrase => exact .factor (h _ _ _ phrase all)
  | mul _ phrase ih =>
    obtain ⟨js, ks, left, right, rfl⟩ := exists_runs_append all
    exact .mul (ih js left) (h _ _ _ phrase right)

theorem Restricts.sum (h : Restricts F G) : Restricts (Sum F) (Sum G) := by
  intro f items runs phrase all
  induction phrase generalizing runs with
  | product phrase => exact .product (h _ _ _ phrase all)
  | add _ phrase ih =>
    obtain ⟨js, ks, left, right, rfl⟩ := exists_runs_append all
    exact .add (ih js left) (h _ _ _ phrase right)
  | sub _ phrase ih =>
    obtain ⟨js, ks, left, right, rfl⟩ := exists_runs_append all
    exact .sub (ih js left) (h _ _ _ phrase right)

/-- The operands of a phrase are all runs exactly if its formula has no group. -/
def TellsGroups (F : Phrase (Operand ν)) : Prop :=
  ∀ f items, F f items → ((Item.runs? items).isSome = true ↔ f.depth = 0)

theorem tellsGroups_signed {S : ν → Formula → Prop} (grouped : ∀ v f, S v f → f.depth ≠ 0) :
    TellsGroups (Signed (Operand.Stands S)) := by
  intro f items h
  induction h with
  | operand h =>
    cases h with
    | run => exact iff_of_true rfl rfl
    | value h => exact iff_of_false nofun (grouped _ _ h)
  | plus _ ih | minus _ ih =>
    exact (Item.isSome_runs?_append [] _ _ _ ▸ Bool.true_and _ ▸ ih)

theorem TellsGroups.product {F : Phrase (Operand ν)} (h : TellsGroups F) :
    TellsGroups (Product F) := by
  intro f items phrase
  induction phrase with
  | factor phrase => exact h _ _ phrase
  | mul _ phrase ih =>
    rw [Item.isSome_runs?_append, Bool.and_eq_true, ih, h _ _ phrase, Formula.depth,
      Nat.max_eq_zero_iff]

theorem TellsGroups.sum {F : Phrase (Operand ν)} (h : TellsGroups F) : TellsGroups (Sum F) := by
  intro f items phrase
  induction phrase with
  | product phrase => exact h _ _ phrase
  | add _ phrase ih | sub _ phrase ih =>
    rw [Item.isSome_runs?_append, Bool.and_eq_true, ih, h _ _ phrase, Formula.depth,
      Nat.max_eq_zero_iff]

end Phrase

/-! ## The value -/

namespace Outline

open Phrase

@[simp] theorem valueOf_nil : valueOf [] = .ok .zero := by
  show Except.ok (Polynomial.reduce [.zero]) = _
  rw [Polynomial.reduce, Term.descending, List.map_singleton, List.mergeSort_singleton]
  rfl

/-- The value of a sum of products of signed operands is the polynomial of its formula. -/
theorem valueOf_computes {f : Formula} {items : List (Item (Operand Value))}
    (h : Sum (Product (Signed (Operand.Stands Value.StandsForGroup))) f items) :
    Computes f.polynomial? (valueOf items) := by
  have grouped : ∀ v f, Value.StandsForGroup v f → f.depth ≠ 0 := fun _ _ h => h.grouped
  have tells := (tellsGroups_signed grouped).product.sum f items h
  rw [valueOf]
  split
  · next runs all =>
    rw [all] at tells
    have runs := (restricts_signed _ fun v _ => nomatch v).product.sum f items runs h all
    rw [Formula.polynomial?, if_pos (tells.1 rfl)]
    have reduced := (Summands.read_computes runs).map Polynomial.reduced
    rwa [Option.map_map] at reduced
  · next with_values =>
    rw [with_values] at tells
    rw [Formula.polynomial?, if_neg fun flat => Bool.false_ne_true (tells.2 flat)]
    exact Operations.combine_computes h

/-- Items that have a value are arranged, or there are none. -/
theorem arranged_of_valueOf {items : List (Item (Operand Value))} {p : Polynomial}
    (apart : Item.Apart items) (h : valueOf items = .ok p) :
    items = [] ∨ Item.Arranged Operand.Readable true items := by
  rw [valueOf] at h
  split at h
  · next runs all =>
    obtain ⟨p, read, -⟩ := exists_ok_of_bind h
    exact Summands.arranged_of_read all apart read
  · exact Operations.arranged_of_combine h

end Outline

end Expansion
