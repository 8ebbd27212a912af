import Mathlib
import Expansion.Proofs.MissingOperands
import Expansion.Proofs.ParenthesizedText

/-!
# Missing operands next to parentheses

**Theorem (`parse_parenthesized_missing`).** If a text without parentheses lacks an operand, then so
does the text with one of its operands in parentheses, unless that is blank or one of the operands
is no term. But the operator that is blamed need not be the same.

A text without parentheses is read from left to right, and the first complaint counts. With
parentheses, it is resolved: first what is in the parentheses is read, and then the other operands,
whatever stands before them. Only then the operators are looked at (`Operations.workOut_of_read`).
-/

namespace Expansion

/-! ## Operands that are no terms -/

namespace Item

/-- The tokens of the runs, from left to right. -/
def operandTokens : List (Item (Operand Empty)) → List (List Token)
  | [] => []
  | operator _ _ :: rest => operandTokens rest
  | operand (.run r) :: rest => r.tokens :: operandTokens rest

/-- The operator at its moved place, or for a run an operand with the value of its term, or with the
moved error. -/
inductive Copies (μ : Relocation) : Item (Operand Empty) → Item (Operand Value) → Prop
  | operator (op : Operator) (place : Span) :
      Copies μ (.operator op place) (.operator op (place.relocate μ))
  | operand {r : Run} {a : Operand Value} (place : Span) :
      Value.ofOperand a = μ.outcome (fun t => ⟨.ofTerm t, place⟩) (Term.ofTokens r.tokens) →
      Copies μ (.operand (.run r)) (.operand a)

variable {μ : Relocation} {items : List (Item (Operand Empty))}
  {copies : List (Item (Operand Value))}

/-- If one of the operands is no term, the values of the copies end with the moved error for it, and
else each copy has the value of the term. -/
def ReadsLike (μ : Relocation) (items : List (Item (Operand Empty)))
    (copies : List (Item (Operand Value))) : Except Error (List Term) → Prop
  | .error e => values copies = .error (e.relocate μ)
  | .ok _ => ∃ vs, values copies = .ok vs ∧ List.Forall₂ (ReadAs μ) items vs

section

variable {item : Item (Operand Empty)} {copy : Item (Operand Value)} {v : Item Value}
  {terms : Except Error (List Term)}

theorem ReadsLike.cons (h : ReadsLike μ items copies terms)
    (first : copy.mapM Value.ofOperand = .ok v) (reads : ReadAs μ item v) :
    ReadsLike μ (item :: items) (copy :: copies) terms := by
  cases terms with
  | error e =>
    rw [ReadsLike, values_cons, first, show values copies = _ from h]
    rfl
  | ok ts =>
    obtain ⟨vs, eq, others⟩ := h
    refine ⟨v :: vs, ?_, .cons reads others⟩
    rw [values_cons, first, eq]
    rfl

theorem ReadsLike.map (h : ReadsLike μ items copies terms) (f : List Term → List Term) :
    ReadsLike μ items copies (terms >>= fun ts => .ok (f ts)) := by
  cases terms <;> exact h

end

theorem readsLike_of_copies (h : List.Forall₂ (Copies μ) items copies) :
    ReadsLike μ items copies ((operandTokens items).mapM Term.ofTokens) := by
  induction h with
  | nil => exact ⟨[], rfl, .nil⟩
  | @cons item copy items copies first rest ih =>
    cases first with
    | operator op place => exact ih.cons rfl (.operator op place)
    | @operand r a place value =>
      rw [operandTokens, List.mapM_cons]
      cases read : Term.ofTokens r.tokens with
      | error e =>
        rw [read] at value
        show values _ = _
        rw [values_cons, mapM, value]
        rfl
      | ok t =>
        rw [read] at value
        have first : (operand a).mapM Value.ofOperand = .ok (.operand ⟨.ofTerm t, place⟩) := by
          rw [mapM, value]
          rfl
        exact (ih.cons first (.operand read rfl)).map (t :: ·)

theorem copies_relocate (h : KeptBy μ items) :
    List.Forall₂ (Copies μ) items (items.map (relocate μ (Operand.relocate μ Empty.elim))) := by
  induction items with
  | nil => exact .nil
  | cons item items ih =>
    refine .cons ?_ (ih h.tail)
    match item with
    | operator op place => exact .operator op place
    | operand (.run r) =>
      have value := Value.ofRun_relocate (h r List.mem_cons_self)
      refine .operand (r.place.relocate μ) (value.trans ?_)
      rw [Value.ofRun]
      cases Term.ofTokens r.tokens <;> rfl

end Item

/-! ## What is around the operand -/

namespace Expression

open Outline

variable {left operand right : String}

/-- What is around the resolved operand is a copy of what is around the operand. -/
theorem copies_wrappedItems (flat : IsFlatText (left ++ operand ++ right))
    (h : IsOperand left operand right) (nonblank : ¬IsBlankText operand) {t : Term}
    (read : Term.ofTokens (behind left operand) = .ok t) :
    List.Forall₂ (Item.Copies (parenthesizing left operand))
      (Item.ofTokens (significantTokens (left ++ operand ++ right)))
      (wrappedItems left operand right t) := by
  obtain ⟨r, tokens, items⟩ := exists_run flat h nonblank
  have plain := flat.not_isParenthesis
  have carries := h.carries
  rw [h.significantTokens_eq, List.append_assoc] at plain carries
  obtain ⟨plain_left, plain_others⟩ := List.forall_mem_append.1 plain
  obtain ⟨-, plain_right⟩ := List.forall_mem_append.1 plain_others
  have wrapped_left := Item.foldr_push_relocate carries.left
  rw [(IsOperand.map_relocate left operand right).1] at wrapped_left
  rw [items, wrappedItems, Item.foldr_push_of_last h.before, wrapped_left,
    Item.foldr_push_relocate carries.right.right]
  refine List.rel_append (Item.copies_relocate (Item.keptBy_ofTokens plain_left carries.left))
    (.cons (.operand (parenthesizedPlace left operand) ?_)
      (Item.copies_relocate (Item.keptBy_ofTokens plain_right carries.right.right)))
  rw [tokens, read]
  rfl

/-- With an operand in parentheses, the first operand that is no term is blamed, with the one in
parentheses before the others. If all are terms, what they are read as is worked out in passes. -/
theorem parse_parenthesized_nonblank (flat : IsFlatText (left ++ operand ++ right))
    (h : IsOperand left operand right) (nonblank : ¬IsBlankText operand) :
    let items := Item.ofTokens (significantTokens (left ++ operand ++ right))
    let terms := (behind left operand :: Item.operandTokens items).mapM Term.ofTokens
    let outcome := (parse .default (left ++ inParentheses operand ++ right)).outcome
    (∀ e, terms = .error e → outcome = .error (e.relocate (parenthesizing left operand))) ∧
    (∀ ts, terms = .ok ts → ∃ values,
      List.Forall₂ (Item.ReadAs (parenthesizing left operand)) items values ∧
      outcome = Operations.workOut values >>= fun p => .ok ⟨p⟩) := by
  intro items terms outcome
  have outcome_eq : outcome = _ := outcome_parse_parenthesized flat h nonblank
  have terms_eq : terms = _ := List.mapM_cons
  cases read : Term.ofTokens (behind left operand) with
  | error e =>
    -- The operand in parentheses is resolved first, and blamed if it is no term.
    rw [read] at outcome_eq terms_eq
    rw [outcome_eq, terms_eq]
    exact ⟨fun _ error => by cases error; rfl, nofun⟩
  | ok t =>
    -- Otherwise its value stands in its place.
    have copies := Item.readsLike_of_copies (copies_wrappedItems flat h nonblank read)
    have outcome_eq : outcome =
        valueOf (wrappedItems left operand right t) >>= fun p => .ok ⟨p⟩ := by
      rw [outcome_eq, read]
      rfl
    rw [valueOf_wrappedItems] at outcome_eq
    rw [read] at terms_eq
    rw [outcome_eq, terms_eq]
    -- The other operands are read in order.
    cases others : (Item.operandTokens items).mapM Term.ofTokens with
    | error e =>
      rw [others] at copies
      refine ⟨fun _ error => ?_, nofun⟩
      cases error
      rw [show Item.values _ = _ from copies]
      rfl
    | ok ts =>
      rw [others] at copies
      obtain ⟨values, eq, reads⟩ := copies
      refine ⟨nofun, fun _ _ => ⟨values, reads, ?_⟩⟩
      rw [eq]
      rfl

/-- Let a text without parentheses lack an operand. With one of its operands in parentheses, it is
not accepted either. A blank operand is blamed first, then the first operand that is no term, with
the one in parentheses before the others, and then the operator that the passes blame. -/
theorem parse_parenthesized_missing {op : Operator} {place : Span}
    (flat : IsFlatText (left ++ operand ++ right)) (h : IsOperand left operand right)
    (missing : (parse .default (left ++ operand ++ right)).outcome =
      .error (.missingOperand op place)) :
    let items := Item.ofTokens (significantTokens (left ++ operand ++ right))
    let terms := (behind left operand :: Item.operandTokens items).mapM Term.ofTokens
    let outcome := (parse .default (left ++ inParentheses operand ++ right)).outcome
    (IsBlankText operand → outcome = .error (.emptyParenthesis (parenthesizedPlace left operand))) ∧
    (¬IsBlankText operand → ∀ e, terms = .error e →
      outcome = .error (e.relocate (parenthesizing left operand))) ∧
    (¬IsBlankText operand → ∀ ts, terms = .ok ts → ∃ before behind,
      items = before ++ .operator op place :: behind ∧
      (op = .mul ∨ before.getLast?.any Item.isRun = true) ∧
      outcome = .error (.missingOperand (Item.blamed before op place behind).1
        ((Item.blamed before op place behind).2.relocate (parenthesizing left operand)))) := by
  intro items terms outcome
  have nonblank_outcome := parse_parenthesized_nonblank flat h
  refine ⟨parse_parenthesized_blank flat h, fun nonblank => (nonblank_outcome nonblank).1,
    fun nonblank ts ok => ?_⟩
  -- All operands are terms: the passes work out what they are read as.
  obtain ⟨values, reads, worked_out⟩ := (nonblank_outcome nonblank).2 ts ok
  obtain ⟨r, -, items_eq⟩ := exists_run flat h nonblank
  have run : ∃ item ∈ items, item.isRun = true := by
    refine ⟨.operand (.run r), ?_, rfl⟩
    rw [show items = _ from items_eq]
    exact List.mem_append_right _ List.mem_cons_self
  -- Without parentheses, the reader of sums misses an operand.
  rw [outcome_parse_flat flat] at missing
  have missing : Summands.read items = .error (.missingOperand op place) := by
    cases read : Summands.read items with
    | error e =>
      rw [read] at missing
      cases missing
      rfl
    | ok p =>
      rw [read] at missing
      cases missing
  -- From what the reader says, one can tell what the passes say.
  obtain ⟨before, behind, split, place_op, error⟩ :=
    Operations.workOut_of_read reads (Item.apart_ofTokens _) run missing
  refine ⟨before, behind, split, place_op, worked_out.trans ?_⟩
  rw [error]
  rfl

/-- Without parentheses, the `*` is blamed in a text that ends with `*-`, and with them the `-`. -/
theorem parse_parenthesized_missing_sign :
    IsFlatText ("" ++ "a" ++ "*-") ∧ IsOperand "" "a" "*-" ∧
    (parse .default ("" ++ "a" ++ "*-")).outcome = .error (.missingOperand .mul ⟨1, 2⟩) ∧
    (parse .default ("" ++ inParentheses "a" ++ "*-")).outcome =
      .error (.missingOperand .sub ⟨4, 5⟩) := by
  have flat : IsFlatText ("" ++ "a" ++ "*-") := by decide
  have operand : IsOperand "" "a" "*-" := ⟨by decide, by decide, by decide⟩
  have missing : (parse .default ("" ++ "a" ++ "*-")).outcome =
      .error (.missingOperand .mul ⟨1, 2⟩) := by decide +kernel
  have nonblank : ¬IsBlankText "a" := fun blank => nomatch blank 'a' List.mem_cons_self
  refine ⟨flat, operand, missing, ?_⟩
  obtain ⟨before, behind, items, -, error⟩ :=
    (parse_parenthesized_missing flat operand missing).2.2 nonblank
      [⟨1, ⟨[('a', 1)]⟩⟩, ⟨1, ⟨[('a', 1)]⟩⟩] (by cbv)
  have stranded : Item.stranded? true (before ++ .operator .mul ⟨1, 2⟩ :: behind) =
      some (.sub, ⟨2, 3⟩) := by
    rw [← items]
    cbv
  rw [Item.blamed_of_stranded stranded] at error
  exact error

/-- With the operand in parentheses, the same operator is blamed, at the place it is moved to. -/
def BlamesAlike (left operand right : String) : Prop := ∀ op place,
  (parse .default (left ++ operand ++ right)).outcome = .error (.missingOperand op place) →
    (parse .default (left ++ inParentheses operand ++ right)).outcome =
      .error (.missingOperand op (place.relocate (parenthesizing left operand)))

/-- Parentheses around an operand can make a difference for what is blamed: in front of two `*`, or
of a sign that no operand follows, or if there is an operand that is no term, or around a blank. -/
theorem parse_parenthesized_blames_other :
    (IsFlatText ("" ++ "a" ++ "**b") ∧ IsOperand "" "a" "**b" ∧ ¬BlamesAlike "" "a" "**b") ∧
    (IsFlatText ("" ++ "a" ++ "*-") ∧ IsOperand "" "a" "*-" ∧ ¬BlamesAlike "" "a" "*-") ∧
    (IsFlatText ("*" ++ "a" ++ "+2/3") ∧ IsOperand "*" "a" "+2/3" ∧
      ¬BlamesAlike "*" "a" "+2/3") ∧
    (IsFlatText ("a+" ++ " " ++ "*b") ∧ IsOperand "a+" " " "*b" ∧ ¬BlamesAlike "a+" " " "*b") := by
  refine ⟨⟨by decide, ⟨by decide, by decide, by decide⟩, fun alike => ?_⟩,
    ⟨by decide, ⟨by decide, by decide, by decide⟩, fun alike => ?_⟩,
    ⟨by decide, ⟨by decide, by decide, by decide⟩, fun alike => ?_⟩,
    ⟨by decide, ⟨by decide, by decide, by decide⟩, fun alike => ?_⟩⟩
  · exact absurd (alike .mul ⟨2, 3⟩ (by decide +kernel)) (by decide +kernel)
  · exact absurd (alike .mul ⟨1, 2⟩ (by decide +kernel)) (by decide +kernel)
  · exact absurd (alike .mul ⟨0, 1⟩ (by decide +kernel)) (by decide +kernel)
  · exact absurd (alike .mul ⟨3, 4⟩ (by decide +kernel)) (by decide +kernel)

end Expression

end Expansion
