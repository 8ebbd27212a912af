import Expansion.Proofs.Outlines

/-!
# What has a value is written for a formula

**Theorem (`exists_derives`).** If an outline has no defects and its items have a value, then its
tokens other than blanks are written for a formula that is not nested too deeply, unless there are
none.

Items that have a value are arranged, and from left to right an arranged sequence keeps to what the
grammar allows: the tokens before an operand are the start of a sum that only lacks a factor, and
those after it make one that ends with a product (`Prefix`).
-/

namespace Expansion

/-! ## Pieces and holes -/

/-- The tokens are a piece of the category that is not nested too deeply. -/
def IsPiece (depth : Nat) (c : Category) (ts : List Token) : Prop :=
  ∃ f, Derives c f ts ∧ f.depth ≤ depth

/-- Followed by a piece of the second category, the tokens are a piece of the first. -/
def Awaits (depth : Nat) (c c' : Category) (ts : List Token) : Prop :=
  ∀ us, IsPiece depth c' us → IsPiece depth c (ts ++ us)

namespace IsPiece

variable {depth i : Nat} {op : Operator} {ts us : List Token}

theorem product (h : IsPiece depth .factor ts) : IsPiece depth .product ts :=
  h.imp fun _ h => ⟨.factor h.1, h.2⟩

theorem sum (h : IsPiece depth .product ts) : IsPiece depth .sum ts :=
  h.imp fun _ h => ⟨.product h.1, h.2⟩

theorem sign (ne : op ≠ .mul) (h : IsPiece depth .factor ts) :
    IsPiece depth .factor (⟨.operator op, i⟩ :: ts) := by
  obtain ⟨f, h, small⟩ := h
  cases op with
  | mul => exact absurd rfl ne
  | add => exact ⟨_, .plus h, small⟩
  | sub => exact ⟨_, .minus h, small⟩

theorem mul (h : IsPiece depth .product ts) (h' : IsPiece depth .factor us) :
    IsPiece depth .product (ts ++ ⟨.operator .mul, i⟩ :: us) := by
  obtain ⟨f, h, small⟩ := h
  obtain ⟨g, h', small'⟩ := h'
  exact ⟨_, .mul h h', max_le small small'⟩

theorem add (ne : op ≠ .mul) (h : IsPiece depth .sum ts) (h' : IsPiece depth .product us) :
    IsPiece depth .sum (ts ++ ⟨.operator op, i⟩ :: us) := by
  obtain ⟨f, h, small⟩ := h
  obtain ⟨g, h', small'⟩ := h'
  cases op with
  | mul => exact absurd rfl ne
  | add => exact ⟨_, .add h h', max_le small small'⟩
  | sub => exact ⟨_, .sub h h', max_le small small'⟩

end IsPiece

/-! ## Tokens that items cover -/

/-- The tokens are those of a run without operators, or a group that is not nested too deeply. -/
inductive Operand.Covers (depth : Nat) : Operand Value → List Token → Prop
  | run {r : Run} : Term.LettersLower r.tokens → r.first.lexeme.isOperator = false →
      Covers depth (.run r) r.tokens
  | value {v : Value} {ts : List Token} : IsPiece depth .factor ts → Covers depth (.value v) ts

/-- The items stand for the tokens, each for some of them. -/
inductive Item.Cover (depth : Nat) : List (Item (Operand Value)) → List Token → Prop
  | nil : Cover depth [] []
  | operator {op : Operator} {place : Span} {i : Nat} {items : List (Item (Operand Value))}
      {ts : List Token} : Cover depth items ts →
      Cover depth (.operator op place :: items) (⟨.operator op, i⟩ :: ts)
  | operand {a : Operand Value} {items : List (Item (Operand Value))} {ts us : List Token} :
      a.Covers depth ts → Cover depth items us → Cover depth (.operand a :: items) (ts ++ us)

theorem Operand.Covers.isPiece {depth : Nat} {a : Operand Value} {ts : List Token}
    (h : a.Covers depth ts) (readable : a.Readable) : IsPiece depth .factor ts := by
  cases h with
  | value h => exact h
  | @run r letters unsigned =>
    obtain ⟨v, h⟩ := readable
    obtain ⟨t, read, -⟩ := exists_ok_of_bind h
    obtain ⟨c, ps, h⟩ := Term.exists_writesMonomial letters unsigned read
    exact ⟨_, .monomial h, Nat.zero_le depth⟩

/-! ## From left to right -/

/-- What may stand before the rest of a sum: where an operand may be next, the start of a sum that
lacks a factor, and otherwise a sum up to the end of a product. -/
def Prefix (depth : Nat) (operandNext : Bool) (ts : List Token) : Prop :=
  ∃ us vs, ts = us ++ vs ∧ Awaits depth .sum .product us ∧
    if operandNext then Awaits depth .product .factor vs else IsPiece depth .product vs

theorem prefix_nil (depth : Nat) : Prefix depth true [] :=
  ⟨[], [], rfl, fun _ => IsPiece.sum, fun _ => IsPiece.product⟩

theorem Prefix.operand {depth : Nat} {ts us : List Token} (h : Prefix depth true ts)
    (factor : IsPiece depth .factor us) : Prefix depth false (ts ++ us) := by
  obtain ⟨ts, vs, rfl, sum, product⟩ := h
  exact ⟨ts, vs ++ us, List.append_assoc .., sum, product us factor⟩

theorem Prefix.operator {depth : Nat} {operandNext : Bool} {ts : List Token}
    (h : Prefix depth operandNext ts) {op : Operator} (i : Nat)
    (sign : operandNext = true → op ≠ .mul) :
    Prefix depth true (ts ++ [⟨.operator op, i⟩]) := by
  obtain ⟨ts, vs, rfl, sum, product⟩ := h
  cases operandNext with
  | true =>
    refine ⟨ts, vs ++ [_], List.append_assoc .., sum, ?_⟩
    intro us factor
    rw [List.append_assoc]
    exact product _ (factor.sign (sign rfl))
  | false =>
    by_cases mul : op = .mul
    · subst mul
      refine ⟨ts, vs ++ [_], List.append_assoc .., sum, ?_⟩
      intro us factor
      rw [List.append_assoc]
      exact IsPiece.mul product factor
    · refine ⟨ts ++ vs ++ [_], [], (List.append_nil _).symm, fun us product' => ?_,
        fun us factor => factor.product⟩
      rw [List.append_assoc]
      exact (sum vs product).add mul product'

theorem isPiece_of_arranged {depth : Nat} {items : List (Item (Operand Value))}
    {ts us : List Token} {operandNext : Bool} (cover : Item.Cover depth items us)
    (arranged : Item.Arranged Operand.Readable operandNext items)
    (h : Prefix depth operandNext ts) : IsPiece depth .sum (ts ++ us) := by
  induction cover generalizing operandNext ts with
  | nil =>
    obtain rfl : operandNext = false := arranged
    obtain ⟨ts, vs, rfl, sum, product⟩ := h
    rw [List.append_nil]
    exact sum vs product
  | @operator op place i items us _ ih =>
    have whole := ih arranged.2 (h.operator i arranged.1)
    rwa [List.append_assoc] at whole
  | operand covers _ ih =>
    obtain ⟨rfl, readable, arranged⟩ := arranged
    have whole := ih arranged (h.operand (covers.isPiece readable))
    rwa [List.append_assoc] at whole

/-! ## From the outside in -/

namespace Outline

/-- A token in front of items is dropped, or is an operator, or joins a run, or starts one. -/
theorem push_cases {ν : Type} (t : Token) (items : List (Item (Operand ν))) :
    t.isBlank = true ∧ Item.push t items = items ∨
    t.isBlank = false ∧ ((∃ op i, t = ⟨.operator op, i⟩ ∧
      Item.push t items = .operator op t.span :: items) ∨
    t.lexeme.isOperator = false ∧ ((∃ r rest, items = .operand (.run r) :: rest ∧
      Item.push t items = .operand (.run ⟨t, r.tokens⟩) :: rest) ∨
    (∀ item ∈ items.head?, item.isRun = false) ∧
      Item.push t items = .operand (.run ⟨t, []⟩) :: items)) := by
  obtain ⟨l, i⟩ := t
  cases l with
  | blanks cs => exact .inl ⟨rfl, rfl⟩
  | operator op => exact .inr ⟨rfl, .inl ⟨op, i, rfl, rfl⟩⟩
  | _ =>
    refine .inr ⟨rfl, .inr ⟨rfl, ?_⟩⟩
    match items with
    | .operand (.run r) :: rest => exact .inl ⟨r, rest, rfl, rfl⟩
    | .operand (.value v) :: rest => exact .inr ⟨by simp [Item.isRun], rfl⟩
    | .operator op place :: rest => exact .inr ⟨by simp [Item.isRun], rfl⟩
    | [] => exact .inr ⟨nofun, rfl⟩

theorem apart_push {ν : Type} (t : Token) {items : List (Item (Operand ν))} (h : Item.Apart items) :
    Item.Apart (Item.push t items) := by
  rcases push_cases t items with
    ⟨-, eq⟩ | ⟨-, ⟨op, i, rfl, eq⟩ | ⟨-, ⟨r, rest, rfl, eq⟩ | ⟨free, eq⟩⟩⟩
  all_goals rw [eq]
  · exact h
  · exact List.isChain_cons.2 ⟨fun _ _ => nofun, h⟩
  · exact List.isChain_cons.2 (List.isChain_cons.1 h)
  · exact List.isChain_cons.2 ⟨fun item first _ => free item first, h⟩

theorem apart_value (v : Value) {items : List (Item (Operand Value))} (h : Item.Apart items) :
    Item.Apart (.operand (.value v) :: items) :=
  List.isChain_cons.2 ⟨fun _ _ => nofun, h⟩

theorem cover_push {depth : Nat} {t : Token} {items : List (Item (Operand Value))}
    {ts : List Token} (letter : ∀ x, t.lexeme = .letter x → x.isLower = true)
    (h : Item.Cover depth items ts) :
    Item.Cover depth (Item.push t items) (if t.isBlank then ts else t :: ts) := by
  rcases push_cases t items with ⟨blank, eq⟩ | ⟨not_blank, pushes⟩
  · rw [eq, if_pos blank]
    exact h
  rw [if_neg (by simp [not_blank])]
  rcases pushes with ⟨op, i, rfl, eq⟩ | ⟨unsigned, ⟨r, rest, rfl, eq⟩ | ⟨-, eq⟩⟩
  · rw [eq]
    exact .operator h
  · rw [eq]
    cases h with
    | operand covers cover =>
      cases covers with
      | run letters _ =>
        have letters : Term.LettersLower (Run.tokens ⟨t, r.tokens⟩) :=
          List.forall_mem_cons.2 ⟨letter, letters⟩
        exact .operand (.run letters unsigned) cover
  · rw [eq]
    have letters : Term.LettersLower (Run.tokens ⟨t, []⟩) := List.forall_mem_singleton.2 letter
    exact .operand (.run letters unsigned) h

theorem isBlank_of_mem_tokens {o : Outline} (h : o.isBlank = true) :
    ∀ t ∈ o.tokens, t.isBlank = true := by
  induction o with
  | nil => exact nofun
  | token t rest ih =>
    obtain ⟨first, others⟩ := Bool.and_eq_true_iff.1 h
    exact List.forall_mem_cons.2 ⟨first, ih others⟩
  | group => cases h

theorem filter_tokens_group (i j : Nat) (body rest : Outline) :
    (group ⟨.opening, i⟩ body ⟨.closing, j⟩ rest).tokens.filter (!·.isBlank) =
      ⟨.opening, i⟩ :: (body.tokens.filter (!·.isBlank) ++ [⟨.closing, j⟩]) ++
        rest.tokens.filter (!·.isBlank) := by
  simp [tokens, Token.isBlank, Lexeme.isBlank]

theorem filter_tokens_ne_nil {o : Outline} (paired : o.Paired) (h : o.isBlank = false) :
    o.tokens.filter (!·.isBlank) ≠ [] := by
  induction o with
  | nil => cases h
  | token t rest ih =>
    rw [tokens, List.filter_cons]
    cases blank : t.isBlank with
    | true =>
      rw [isBlank, blank] at h
      exact ih paired h
    | false => exact List.cons_ne_nil _ _
  | group opening body closing rest _ _ =>
    obtain ⟨l, i⟩ := opening
    obtain ⟨rfl, -⟩ := paired
    exact List.cons_ne_nil _ _

/-- The tokens of a sequence of items that has a value are written for a formula, unless there are
none. -/
theorem isPiece_of_valueOf {depth : Nat} {items : List (Item (Operand Value))} {ts : List Token}
    {p : Polynomial} (apart : Item.Apart items) (cover : Item.Cover depth items ts)
    (h : valueOf items = .ok p) : ts = [] ∨ IsPiece depth .sum ts := by
  rcases arranged_of_valueOf apart h with rfl | arranged
  · cases cover
    exact .inl rfl
  · exact .inr (isPiece_of_arranged cover arranged (prefix_nil depth))

theorem defect?_token {maxDepth depth : Nat} {t : Token} {rest : Outline}
    (h : (token t rest).defect? maxDepth depth = none) : rest.defect? maxDepth depth = none := by
  obtain ⟨l, i⟩ := t
  cases l with
  | opening | closing => cases h
  | _ => exact h

theorem defect?_group {maxDepth depth : Nat} {opening closing : Token} {body rest : Outline}
    (h : (group opening body closing rest).defect? maxDepth depth = none) :
    body.isBlank = false ∧ depth < maxDepth ∧ body.defect? maxDepth (depth + 1) = none ∧
      rest.defect? maxDepth depth = none := by
  rw [defect?] at h
  split at h
  · cases h
  split at h
  · cases h
  · next nonblank small =>
    exact ⟨Bool.eq_false_iff.2 nonblank, Nat.lt_of_not_le small, Option.or_eq_none_iff.1 h⟩

theorem cover_of_itemsOf {maxDepth depth : Nat} {o : Outline} {items : List (Item (Operand Value))}
    (paired : o.Paired) (letters : Term.LettersLower o.tokens)
    (defect : o.defect? maxDepth depth = none) (h : o.itemsOf = .ok items) : Item.Apart items ∧
      Item.Cover (maxDepth - depth) items (o.tokens.filter (!·.isBlank)) := by
  induction o generalizing depth items with
  | nil =>
    cases h
    exact ⟨.nil, .nil⟩
  | token t rest ih =>
    obtain ⟨letter, letters⟩ := List.forall_mem_cons.1 letters
    rw [itemsOf_token] at h
    obtain ⟨js, rest_items, eq⟩ := exists_ok_of_bind h
    cases eq
    obtain ⟨apart, cover⟩ := ih paired letters (defect?_token defect) rest_items
    have cover := cover_push letter cover
    refine ⟨apart_push t apart, ?_⟩
    rw [tokens, List.filter_cons]
    cases blank : t.isBlank <;> simpa [blank] using cover
  | group opening body closing rest ihBody ihRest =>
    obtain ⟨opens, closes, body_paired, rest_paired⟩ := paired
    obtain ⟨l, i⟩ := opening
    obtain ⟨l', j⟩ := closing
    obtain rfl : l = .opening := opens
    obtain rfl : l' = .closing := closes
    -- The inside and what is behind it have items.
    rw [itemsOf_group] at h
    obtain ⟨p, h, eq⟩ := exists_ok_of_bind h
    obtain ⟨inner, body_items, value⟩ := exists_ok_of_bind h
    obtain ⟨js, rest_items, eq⟩ := exists_ok_of_bind eq
    cases eq
    -- By induction these cover the tokens.
    obtain ⟨nonblank, small, body_defect, rest_defect⟩ := defect?_group defect
    have letters := List.forall_mem_append.1 (List.forall_mem_cons.1 letters).2
    have rest_letters := (List.forall_mem_cons.1 letters.2).2
    obtain ⟨apart, cover⟩ := ihRest rest_paired rest_letters rest_defect rest_items
    obtain ⟨inner_apart, inner_cover⟩ := ihBody body_paired letters.1 body_defect body_items
    -- The group is written for a factor, since its inside is not blank.
    obtain ⟨f, derives, depth_le⟩ := (isPiece_of_valueOf inner_apart inner_cover value).resolve_left
      (filter_tokens_ne_nil body_paired nonblank)
    refine ⟨apart_value _ apart, ?_⟩
    have piece : IsPiece (maxDepth - depth) .factor _ :=
      ⟨_, .group (i := i) (j := j) derives, by rw [Formula.depth]; omega⟩
    rw [filter_tokens_group]
    exact .operand (.value piece) cover

theorem exists_derives {maxDepth depth : Nat} {o : Outline} {items : List (Item (Operand Value))}
    {p : Polynomial} (paired : o.Paired) (letters : Term.LettersLower o.tokens)
    (defect : o.defect? maxDepth depth = none) (h : o.itemsOf = .ok items)
    (value : valueOf items = .ok p) :
    o.tokens.filter (!·.isBlank) = [] ∨
      IsPiece (maxDepth - depth) .sum (o.tokens.filter (!·.isBlank)) := by
  obtain ⟨apart, cover⟩ := cover_of_itemsOf paired letters defect h
  exact isPiece_of_valueOf apart cover value

end Outline

end Expansion
