import Expansion.Proofs.Groups

/-!
# Chains of parts in parentheses

A *chain* is a text of parts in parentheses with an operator between any two of them.

**Theorem (`parse_chain`).** If the parts of a chain are parsed as some polynomials, then the chain
is parsed as the sum of the products of these: each longest run of factors with `*` between them is
multiplied from left to right, and the products are added and subtracted from left to right. Where
a product is not defined, the error is for the first `*` up to which it is not.

The outline of a chain is a sequence of groups and operators. Its items alternate, so there is
nothing to do for the first of the three passes; the other two are followed together, from one
operator to the next (`multiplied_links`).
-/

namespace Expansion

/-! ## Sums of products -/

/-- Factors: the first one, and those behind the `*` at a place. -/
structure Factors where
  first : Polynomial
  others : List (Span × Polynomial)

namespace Factors

/-- The product of the factors from left to right. -/
def product? (f : Factors) : Option Polynomial :=
  f.others.foldlM (fun p (_, q) => p.mul? q) f.first

/-- The place of the first `*` up to which the product of `p` and the factors is not defined. -/
def failureAfter? (p : Polynomial) : List (Span × Polynomial) → Option Span
  | [] => none
  | (place, q) :: rest => match p.mul? q with
    | some product => failureAfter? product rest
    | none => some place

/-- The place of the first `*` up to which the product is not defined. -/
def failure? (f : Factors) : Option Span := failureAfter? f.first f.others

end Factors

/-- Products: the first one, and those behind a plus or minus. -/
structure SumOfProducts where
  first : Factors
  others : List (Operator × Factors)

namespace SumOfProducts

/-- The sum with one more product behind the operator. -/
def addProduct? (sum : Polynomial) : Operator × Factors → Option Polynomial
  | (op, f) => f.product?.map fun p => if op = .sub then sum - p else sum + p

/-- The products added and subtracted from left to right. -/
def total? (s : SumOfProducts) : Option Polynomial := do
  let p ← s.first.product?
  s.others.foldlM addProduct? p

/-- The place of the first `*` up to which a product is not defined. -/
def failure? (s : SumOfProducts) : Option Span :=
  s.first.failure?.or (s.others.findSome? fun (_, f) => f.failure?)

end SumOfProducts

/-- An operator at its place, and the value behind it. -/
abbrev Link := Operator × Span × Value

/-- The factors that go on a product, and the products behind them. -/
def splitProducts : List Link → List (Span × Polynomial) × List (Operator × Factors)
  | [] => ([], [])
  | (.mul, place, v) :: rest =>
    ((place, v.polynomial) :: (splitProducts rest).1, (splitProducts rest).2)
  | (op, _, v) :: rest =>
    ([], (op, ⟨v.polynomial, (splitProducts rest).1⟩) :: (splitProducts rest).2)

/-- The longest runs of factors with `*` between them, with the operators between the runs. -/
def SumOfProducts.ofLinks (v : Value) (links : List Link) : SumOfProducts :=
  ⟨⟨v.polynomial, (splitProducts links).1⟩, (splitProducts links).2⟩

/-! ## The passes -/

namespace Operations

/-- The items of the links, where `f` makes an operand of a value. -/
def linkItems {α : Type} (f : Value → α) (links : List Link) : List (Item α) :=
  links.flatMap fun (op, place, v) => [.operator op place, .operand (f v)]

theorem operandPass_linkItems (links : List Link) :
    operandPass.run (linkItems Operand.value links) = .ok (linkItems id links) := by
  induction links with
  | nil => rfl
  | cons link links ih =>
    obtain ⟨op, place, v⟩ := link
    show operandPass.run
      (.operator op place :: .operand (.value v) :: linkItems Operand.value links) = _
    rw [operandPass_operator, operandPass_operand, ih]
    rfl

theorem alternating_linkItems (links : List Link) :
    Item.Alternating false (linkItems id links) := by
  induction links with
  | nil => rfl
  | cons link links ih => exact ⟨rfl, rfl, ih⟩

/-- Where operands and operators alternate, there are no signs. -/
theorem sign_of_alternating {operandNext : Bool} {items : List (Item Value)}
    (h : Item.Alternating operandNext items) : sign operandNext none items = .ok items := by
  induction items generalizing operandNext with
  | nil => rfl
  | cons item items ih =>
    cases item with
    | operand v =>
      rw [sign, ih h.2]
      rfl
    | operator op place =>
      obtain ⟨rfl, rest⟩ := h
      show (sign true none items >>= _) = _
      rw [ih rest]
      rfl

theorem multiply_operand (v : Value) (items : List (Item Value)) :
    multiply none (.operand v :: items) = multiply (some v) items := by
  rw [multiply]
  cases multiply (some v) items <;> rfl

/-- The second pass ends with the first product and items that the third pass adds to it as the sum
says, or it stops at the first `*` up to which a product is not defined. -/
def Multiplied (s : SumOfProducts) (x : Except Error (List (Item Value))) : Prop :=
  (∃ w rest, x = .ok (.operand w :: rest) ∧ s.failure? = none ∧
    s.first.product? = some w.polynomial ∧ ∀ sum last, ∃ p,
      s.others.foldlM SumOfProducts.addProduct? sum = some p ∧ addUpFrom sum last rest = .ok p) ∨
  ∃ place, x = .error (.exponentTooLarge place) ∧ s.failure? = some place ∧
    (s.first.product? = none ∨
      ∀ sum, s.others.foldlM SumOfProducts.addProduct? sum = none)

namespace Multiplied

variable {p q product : Polynomial} {place : Span} {fs : List (Span × Polynomial)} {f : Factors}
  {rs : List (Operator × Factors)} {x : Except Error (List (Item Value))}

theorem last (v : Value) : Multiplied ⟨⟨v.polynomial, []⟩, []⟩ (.ok [.operand v]) :=
  .inl ⟨v, [], rfl, rfl, rfl, fun sum _ => ⟨sum, rfl, rfl⟩⟩

/-- The first two factors may be replaced by their product. -/
theorem factor (mul : p.mul? q = some product) (h : Multiplied ⟨⟨product, fs⟩, rs⟩ x) :
    Multiplied ⟨⟨p, (place, q) :: fs⟩, rs⟩ x := by
  have failure : SumOfProducts.failure? ⟨⟨p, (place, q) :: fs⟩, rs⟩ =
      SumOfProducts.failure? ⟨⟨product, fs⟩, rs⟩ := by
    simp only [SumOfProducts.failure?, Factors.failure?, Factors.failureAfter?, mul]
  have product : Factors.product? ⟨p, (place, q) :: fs⟩ = Factors.product? ⟨product, fs⟩ := by
    simp only [Factors.product?, List.foldlM_cons, mul, Option.bind_eq_bind, Option.bind_some]
  rw [Multiplied, failure, product]
  exact h

theorem tooLarge (mul : p.mul? q = none) :
    Multiplied ⟨⟨p, (place, q) :: fs⟩, rs⟩ (.error (.exponentTooLarge place)) := by
  refine .inr ⟨place, rfl, ?_, .inl ?_⟩
  · simp only [SumOfProducts.failure?, Factors.failure?, Factors.failureAfter?, mul,
      Option.some_or]
  · simp only [Factors.product?, List.foldlM_cons, mul, Option.bind_eq_bind, Option.bind_none]

/-- One more product may stand in front, with a plus or minus behind it. -/
theorem summand {op : Operator} (ne : op ≠ .mul) (v : Value) (place : Span)
    (h : Multiplied ⟨f, rs⟩ x) : Multiplied ⟨⟨v.polynomial, []⟩, (op, f) :: rs⟩
      (x >>= fun ks => .ok (.operand v :: .operator op place :: ks)) := by
  have failure : SumOfProducts.failure? ⟨⟨v.polynomial, []⟩, (op, f) :: rs⟩ =
      SumOfProducts.failure? ⟨f, rs⟩ := by
    simp only [SumOfProducts.failure?, List.findSome?_cons]
    cases f.failure? <;> rfl
  rcases h with ⟨w, rest, rfl, defined, first, others⟩ | ⟨place', rfl, failed, undefined⟩
  · refine .inl ⟨v, _, rfl, failure.trans defined, rfl, fun sum _ => ?_⟩
    have add : SumOfProducts.addProduct? sum (op, f) =
        some (if op = .sub then sum - w.polynomial else sum + w.polynomial) :=
      congrArg (Option.map _) first
    rw [List.foldlM_cons, add]
    obtain ⟨p, total, added⟩ := others _ w.place
    refine ⟨p, total, ?_⟩
    cases op with
    | mul => exact absurd rfl ne
    | add | sub => exact added
  · refine .inr ⟨place', rfl, failure.trans failed, .inr fun sum => ?_⟩
    rw [List.foldlM_cons, SumOfProducts.addProduct?]
    rcases undefined with first | others
    · rw [show f.product? = none from first]
      rfl
    · cases f.product? with
      | none => rfl
      | some p => exact others _

end Multiplied

theorem multiplied_links (v : Value) (links : List Link) :
    Multiplied (.ofLinks v links) (multiply (some v) (linkItems id links)) := by
  induction links generalizing v with
  | nil => exact .last v
  | cons link links ih =>
    obtain ⟨op, place, u⟩ := link
    by_cases product : op = .mul
    · subst product
      show Multiplied _ (v.mul place u >>= fun w => multiply (some w) (linkItems id links))
      rw [Value.mul]
      split
      · next p mul => exact .factor mul (ih _)
      · next mul => exact .tooLarge mul
    · show Multiplied _ (multiply (some v) (.operator op place :: .operand u :: linkItems id links))
      rw [multiply_operator product, multiply_operand]
      have step := Multiplied.summand product v place (ih u)
      cases op with
      | mul => exact absurd rfl product
      | add | sub => exact step

/-- Values with operators between them are worked out as the sum of products, or an exponent is too
large at the first `*` where that fails. -/
theorem combine_links (v : Value) (links : List Link) :
    (∃ p, combine (.operand (.value v) :: linkItems Operand.value links) = .ok p ∧
      (SumOfProducts.ofLinks v links).total? = some p ∧
      (SumOfProducts.ofLinks v links).failure? = none) ∨
    ∃ place, combine (.operand (.value v) :: linkItems Operand.value links) =
        .error (.exponentTooLarge place) ∧
      (SumOfProducts.ofLinks v links).total? = none ∧
      (SumOfProducts.ofLinks v links).failure? = some place := by
  have alternating : Item.Alternating true (.operand v :: linkItems id links) :=
    ⟨rfl, alternating_linkItems links⟩
  have passes : combine (.operand (.value v) :: linkItems Operand.value links) =
      multiply (some v) (linkItems id links) >>= addUp := by
    show operandPass.run (.operand (.value v) :: linkItems Operand.value links) >>= _ = _
    rw [operandPass_operand, operandPass_linkItems]
    show (sign true none (.operand v :: linkItems id links) >>= _) = _
    rw [sign_of_alternating alternating]
    show (multiply none (.operand v :: linkItems id links) >>= _) = _
    rw [multiply_operand]
  rw [passes]
  rcases multiplied_links v links with ⟨w, rest, eq, defined, first, others⟩ |
    ⟨place, eq, failed, undefined⟩
  · rw [eq]
    obtain ⟨p, total, added⟩ := others w.polynomial w.place
    refine .inl ⟨p, added, ?_, defined⟩
    rw [SumOfProducts.total?, first]
    exact total
  · rw [eq]
    refine .inr ⟨place, rfl, ?_, failed⟩
    rw [SumOfProducts.total?]
    rcases undefined with first | others
    · rw [first]
      rfl
    · cases (SumOfProducts.ofLinks v links).first.product? with
      | none => rfl
      | some p => exact others p

end Operations

/-! ## Chains -/

/-- A text and the polynomial that it is parsed as. -/
structure Part where
  text : String
  polynomial : Polynomial

namespace Part

/-- The part is not blank and parsed as its polynomial. -/
def Accepted (maxDepth : Nat) (part : Part) : Prop :=
  ¬IsBlankText part.text ∧
    (Expression.parse ⟨maxDepth⟩ part.text).outcome = .ok ⟨part.polynomial⟩

/-- Where the part ends in parentheses that start at `start`. -/
def stop (start : Nat) (part : Part) : Nat := start + 1 + byteLength part.text.toList + 1

/-- The value of the part in parentheses that start at `start`. -/
def value (start : Nat) (part : Part) : Value := ⟨part.polynomial, ⟨start, part.stop start⟩⟩

end Part

/-- The text of parts in parentheses with operators between them. -/
def chainText (first : Part) : List (Operator × Part) → String
  | [] => inParentheses first.text
  | (op, next) :: rest => inParentheses first.text ++ (op.char.toString ++ chainText next rest)

/-- The operators of a chain at their places in the text, where the chain starts at `start`, and the
values behind them. -/
def chainLinks (start : Nat) (first : Part) : List (Operator × Part) → List Link
  | [] => []
  | (op, next) :: rest =>
    let stop := first.stop start
    (op, ⟨stop, stop + 1⟩, next.value (stop + 1)) :: chainLinks (stop + 1) next rest

namespace Outline

/-- The group of a part in parentheses that start at `start`, before the rest of an outline. -/
def ofPart (start : Nat) (part : Part) (rest : Outline) : Outline :=
  .group ⟨.opening, start⟩ (outlineAt (start + 1) part.text)
    ⟨.closing, start + 1 + byteLength part.text.toList⟩ rest

/-- The outline of a chain that starts at `start`. -/
def ofChain (start : Nat) (first : Part) : List (Operator × Part) → Outline
  | [] => ofPart start first .nil
  | (op, next) :: rest =>
    let stop := first.stop start
    ofPart start first (.token ⟨.operator op, stop⟩ (ofChain (stop + 1) next rest))

theorem tokens_outlineAt (start : Nat) (text : String) :
    (outlineAt start text).tokens = Token.place start (lexemes text.toList) := by
  rw [outlineAt, tokens_relocate, tokens_ofTokens, place_lexemes]
  rfl

theorem tokens_ofPart {start : Nat} {part : Part} {rest : Outline} {text : String}
    (h : rest.tokens = Token.place (part.stop start) (lexemes text.toList)) :
    (ofPart start part rest).tokens =
      Token.place start (lexemes (inParentheses part.text ++ text).toList) := by
  rw [lexemes_inParentheses_append, Token.place, place_lexemes_append, Token.place, ofPart, tokens,
    h, tokens_outlineAt]
  rfl

theorem tokens_operator {start : Nat} {rest : Outline} {text : String} (op : Operator)
    (h : rest.tokens = Token.place (start + 1) (lexemes text.toList)) :
    (token ⟨.operator op, start⟩ rest).tokens =
      Token.place start (lexemes (op.char.toString ++ text).toList) := by
  have chars : (op.char.toString ++ text).toList = op.char :: text.toList := by
    simp [String.toList_append]
  have size : byteLength (Lexeme.operator op).chars = 1 := by cases op <;> rfl
  rw [chars, lexemes_operator, Token.place, size, tokens, h]

/-- The outline of a chain has the tokens of its text. -/
theorem tokens_ofChain (start : Nat) (first : Part) (others : List (Operator × Part)) :
    (ofChain start first others).tokens =
      Token.place start (lexemes (chainText first others).toList) := by
  induction others generalizing start first with
  | nil =>
    have alone : inParentheses first.text ++ "" = inParentheses first.text := String.append_empty
    rw [chainText, ← alone]
    exact tokens_ofPart rfl
  | cons link rest ih => exact tokens_ofPart (tokens_operator link.1 (ih _ link.2))

/-- The outline has no defects as one that is not in any group, and these items. -/
structure Offers (maxDepth : Nat) (o : Outline) (items : List (Item (Operand Value))) : Prop where
  matched : o.Matched
  defect : o.defect? maxDepth 0 = none
  items : o.itemsOf = .ok items

theorem offers_ofPart {maxDepth : Nat} {part : Part} (accepted : part.Accepted maxDepth)
    (start : Nat) {rest : Outline} {items : List (Item (Operand Value))}
    (h : Offers (maxDepth + 1) rest items) : Offers (maxDepth + 1) (ofPart start part rest)
      (.operand (.value (part.value start)) :: items) := by
  obtain ⟨nonblank, parsed⟩ := accepted
  have parsed : (Expression.parse ⟨maxDepth + 1 - (0 + 1)⟩ part.text).outcome =
      .ok ⟨part.polynomial⟩ := parsed
  obtain ⟨matched, defect, value⟩ :=
    Expression.outlineAt_of_parse parsed (Nat.succ_pos maxDepth) (start + 1)
  refine ⟨⟨rfl, rfl, matched, h.matched⟩, ?_, ?_⟩
  · exact defect?_group_eq_none (Expression.isBlank_outlineAt nonblank) (Nat.succ_pos maxDepth)
      defect h.defect
  · rw [ofPart, itemsOf_group, value, h.items]
    rfl

theorem offers_operator {maxDepth : Nat} (op : Operator) (start : Nat) {rest : Outline}
    {items : List (Item (Operand Value))} (h : Offers maxDepth rest items) :
    Offers maxDepth (.token ⟨.operator op, start⟩ rest)
      (.operator op ⟨start, start + 1⟩ :: items) := by
  refine ⟨⟨?_, h.matched⟩, h.defect, ?_⟩
  · rintro (eq | eq) <;> cases eq
  · rw [itemsOf_token, h.items]
    cases op <;> rfl

/-- If its parts are parsed, then the outline of a chain has no defects, and its items are the
values of the parts with the operators between them. -/
theorem offers_ofChain {maxDepth : Nat} {first : Part} {others : List (Operator × Part)}
    (accepted : ∀ part ∈ first :: others.map Prod.snd, part.Accepted maxDepth) (start : Nat) :
    Offers (maxDepth + 1) (ofChain start first others) (.operand (.value (first.value start)) ::
      Operations.linkItems Operand.value (chainLinks start first others)) := by
  induction others generalizing start first with
  | nil => exact offers_ofPart (accepted first List.mem_cons_self) start ⟨trivial, rfl, rfl⟩
  | cons link rest ih =>
    obtain ⟨op, next⟩ := link
    obtain ⟨accepted_first, accepted⟩ := List.forall_mem_cons.1 accepted
    exact offers_ofPart accepted_first start (offers_operator op _ (ih accepted _))

end Outline

namespace Expression

open Outline

/-- A chain is parsed as the sum of the products of its parts, and fails exactly where a product is
not defined. -/
theorem parse_chain {d : Nat} {first : Part} {others : List (Operator × Part)}
    (accepted : ∀ part ∈ first :: others.map Prod.snd, part.Accepted d) :
    (∀ e, (parse ⟨d + 1⟩ (chainText first others)).outcome = .ok e ↔
      (SumOfProducts.ofLinks (first.value 0) (chainLinks 0 first others)).total? =
        some e.polynomial) ∧
    ∀ err, (parse ⟨d + 1⟩ (chainText first others)).outcome = .error err ↔
      ∃ place, err = .exponentTooLarge place ∧
        (SumOfProducts.ofLinks (first.value 0) (chainLinks 0 first others)).failure? =
          some place := by
  obtain ⟨matched, defect, items⟩ := offers_ofChain accepted 0
  -- The chain is parsed into its parts, each with its value.
  have outline : ofTokens (tokenize (chainText first others)) = ofChain 0 first others := by
    rw [tokenize, ← tokens_ofChain]
    exact matched.ofTokens_tokens
  have outcome : (parse ⟨d + 1⟩ (chainText first others)).outcome =
      Operations.combine (.operand (.value (first.value 0)) ::
        Operations.linkItems Operand.value (chainLinks 0 first others)) >>= fun p => .ok ⟨p⟩ := by
    rw [outcome_parse, valueOfTokens, outline, defect, items]
    rfl
  rw [outcome]
  -- Either all products are defined, or one is the first that is not.
  rcases Operations.combine_links (first.value 0) (chainLinks 0 first others) with
    ⟨p, eq, total, defined⟩ | ⟨place, eq, undefined, failed⟩
  · rw [eq, total, defined]
    refine ⟨fun e => ⟨?_, ?_⟩, fun err => ⟨?_, ?_⟩⟩
    · intro parsed
      cases parsed
      rfl
    · intro same
      cases same
      rfl
    · intro parsed
      cases parsed
    · rintro ⟨place, -, failed⟩
      cases failed
  · rw [eq, undefined, failed]
    refine ⟨fun e => ⟨?_, ?_⟩, fun err => ⟨?_, ?_⟩⟩
    · intro parsed
      cases parsed
    · intro same
      cases same
    · intro same
      cases same
      exact ⟨place, rfl, rfl⟩
    · rintro ⟨place', rfl, same⟩
      cases same
      rfl

/-- A difference of products, and a product that is not defined from its second `*` on. -/
theorem parse_chain_mixed :
    (parse ⟨1⟩ "(a+1)*(a - 1)-(2)").outcome = .ok ⟨⟨[⟨1, ⟨[('a', 2)]⟩⟩, ⟨-3, .one⟩]⟩⟩ ∧
    (parse ⟨1⟩ "(2)+(a600)*(a400)*(a600)*(2)").outcome =
      .error (.exponentTooLarge ⟨17, 18⟩) := by
  have two : Part.Accepted 0 ⟨"2", ⟨[⟨2, .one⟩]⟩⟩ := ⟨by decide, by cbv⟩
  constructor
  · have accepted : ∀ part ∈ Part.mk "a+1" ⟨[⟨1, ⟨[('a', 1)]⟩⟩, ⟨1, .one⟩]⟩ ::
        [(Operator.mul, Part.mk "a - 1" ⟨[⟨1, ⟨[('a', 1)]⟩⟩, ⟨-1, .one⟩]⟩),
          (Operator.sub, Part.mk "2" ⟨[⟨2, .one⟩]⟩)].map Prod.snd, part.Accepted 0 := by
      refine List.forall_mem_cons.2 ⟨⟨by decide, by cbv⟩, ?_⟩
      exact List.forall_mem_cons.2 ⟨⟨by decide, by cbv⟩, List.forall_mem_singleton.2 two⟩
    exact ((parse_chain accepted).1 _).2 (by cbv)
  · have power : Part.Accepted 0 ⟨"a600", ⟨[⟨1, ⟨[('a', 600)]⟩⟩]⟩⟩ := ⟨by decide, by decide +kernel⟩
    have accepted : ∀ part ∈ Part.mk "2" ⟨[⟨2, .one⟩]⟩ ::
        [(Operator.add, Part.mk "a600" ⟨[⟨1, ⟨[('a', 600)]⟩⟩]⟩),
          (Operator.mul, Part.mk "a400" ⟨[⟨1, ⟨[('a', 400)]⟩⟩]⟩),
          (Operator.mul, Part.mk "a600" ⟨[⟨1, ⟨[('a', 600)]⟩⟩]⟩),
          (Operator.mul, Part.mk "2" ⟨[⟨2, .one⟩]⟩)].map Prod.snd, part.Accepted 0 := by
      refine List.forall_mem_cons.2 ⟨two, List.forall_mem_cons.2 ⟨power, ?_⟩⟩
      refine List.forall_mem_cons.2 ⟨⟨by decide, by decide +kernel⟩, ?_⟩
      exact List.forall_mem_cons.2 ⟨power, List.forall_mem_singleton.2 two⟩
    exact ((parse_chain accepted).2 _).2 ⟨_, rfl, by decide +kernel⟩

end Expression

end Expansion
