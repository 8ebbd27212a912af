import Expansion.Proofs.Rendering
import Expansion.Proofs.Replacement
import Expansion.Proofs.ZeroFactors

/-!
# Parentheses around an operand

**Theorem (`parse_parenthesized_iff`).** A text without parentheses and the same text with one of
its operands in parentheses are parsed alike, with two exceptions. A blank operand is not accepted
in parentheses. And exponents that are too large are accepted with the parentheses where they are
multiplied by 0, and not without.

The operand is a monomial, and with the parentheses it is a group with the monomial in it
(`Formula.Wraps`). Both are resolved to the same polynomial, and so are the formulas of the two
texts. But a text without groups is not resolved. It is multiplied out, which looks at exponents
before it is known that nothing is left of them.

The tokens of the two texts differ in the parentheses and in their places, so what is written with
one of them is written with the other (`Derives.replaceable`).
-/

namespace Expansion

namespace Formula

/-- The second formula is the first one with a monomial put in a group. -/
inductive Wraps : Formula → Formula → Prop
  | monomial (c : Nat) (ps : List (Char × Nat)) :
      Wraps (.monomial c ps) (.group (.monomial c ps))
  | plus {f g : Formula} : Wraps f g → Wraps (.plus f) (.plus g)
  | minus {f g : Formula} : Wraps f g → Wraps (.minus f) (.minus g)
  | mul_left {f g : Formula} (h : Formula) : Wraps f g → Wraps (.mul f h) (.mul g h)
  | mul_right {f g : Formula} (h : Formula) : Wraps f g → Wraps (.mul h f) (.mul h g)
  | add_left {f g : Formula} (h : Formula) : Wraps f g → Wraps (.add f h) (.add g h)
  | add_right {f g : Formula} (h : Formula) : Wraps f g → Wraps (.add h f) (.add h g)
  | sub_left {f g : Formula} (h : Formula) : Wraps f g → Wraps (.sub f h) (.sub g h)
  | sub_right {f g : Formula} (h : Formula) : Wraps f g → Wraps (.sub h f) (.sub h g)

theorem congruent_wraps : Congruent Wraps :=
  ⟨.plus, .minus, .mul_left, .mul_right, .add_left, .add_right, .sub_left, .sub_right⟩

theorem congruent_wraps_flip : Congruent fun g f => Wraps f g :=
  ⟨.plus, .minus, .mul_left, .mul_right, .add_left, .add_right, .sub_left, .sub_right⟩

namespace Wraps

variable {f g : Formula}

/-- The formulas are resolved to the same polynomial. -/
theorem resolve_eq (h : Wraps f g) : g.resolve = f.resolve := by
  induction h with
  | monomial c ps =>
    show ((Term.ofPowers? c ps).map ([·])).map Polynomial.reduce = _
    rw [Option.map_map]
    rfl
  | plus _ ih => exact ih
  | minus _ ih => exact congrArg (Option.map (- ·)) ih
  | mul_left _ _ ih | mul_right _ _ ih | add_left _ _ ih | add_right _ _ ih | sub_left _ _ ih
  | sub_right _ _ ih => rw [resolve, resolve, ih]

theorem depth_eq (h : Wraps f g) (flat : f.depth = 0) : g.depth = 1 := by
  induction h with
  | monomial => rfl
  | plus _ ih | minus _ ih => exact ih flat
  | mul_left _ _ ih | add_left _ _ ih | sub_left _ _ ih =>
    obtain ⟨left, right⟩ := Nat.max_eq_zero_iff.1 flat
    rw [depth, ih left, right]
    rfl
  | mul_right _ _ ih | add_right _ _ ih | sub_right _ _ ih =>
    obtain ⟨left, right⟩ := Nat.max_eq_zero_iff.1 flat
    rw [depth, ih right, left]
    rfl

end Wraps

end Formula

/-! ## What is written without parentheses -/

/-- Without parentheses there are no groups. -/
theorem Derives.depth_eq_zero {c : Category} {f : Formula} {ts : List Token} (h : Derives c f ts)
    (plain : ∀ t ∈ ts, ¬t.IsParenthesis) : f.depth = 0 := by
  induction h with
  | monomial => rfl
  | group => exact absurd (.inl rfl) (plain _ List.mem_cons_self)
  | plus _ ih | minus _ ih => exact ih (List.forall_mem_cons.1 plain).2
  | factor _ ih | product _ ih => exact ih plain
  | mul _ _ ih ih' | add _ _ ih ih' | sub _ _ ih ih' =>
    obtain ⟨left, right⟩ := List.forall_mem_append.1 plain
    exact Nat.max_eq_zero_iff.2 ⟨ih left, ih' (List.forall_mem_cons.1 right).2⟩

/-- Without parentheses and operators there is only a monomial. -/
theorem Derives.eq_monomial {c : Category} {f : Formula} {ts : List Token} (h : Derives c f ts)
    (plain : ∀ t ∈ ts, ¬t.IsParenthesis) (unsigned : ∀ t ∈ ts, t.lexeme.isOperator = false) :
    ∃ n ps, f = .monomial n ps ∧ WritesMonomial n ps ts := by
  induction h with
  | monomial h => exact ⟨_, _, rfl, h⟩
  | group => exact absurd (.inl rfl) (plain _ List.mem_cons_self)
  | plus | minus => cases unsigned _ List.mem_cons_self
  | factor _ ih | product _ ih => exact ih plain unsigned
  | mul | add | sub => cases unsigned _ (List.mem_append_right _ List.mem_cons_self)

theorem Derives.ne_nil {c : Category} {f : Formula} {ts : List Token} (h : Derives c f ts) :
    ts ≠ [] := by
  induction h with
  | monomial h => exact (Outline.isWord_of_writesMonomial h).1
  | group | plus | minus => exact List.cons_ne_nil _ _
  | factor _ ih | product _ ih => exact ih
  | mul | add | sub => exact List.append_ne_nil_of_right_ne_nil _ (List.cons_ne_nil _ _)

theorem Derives.eq_group {f : Formula} {ts : List Token} {i j : Nat}
    (h : Derives .factor f (⟨.opening, i⟩ :: (ts ++ [⟨.closing, j⟩]))) :
    ∃ g, f = .group g ∧ Derives .sum g ts := by
  generalize whole : (⟨.opening, i⟩ : Token) :: (ts ++ [⟨.closing, j⟩]) = all at h
  cases h with
  | monomial h =>
    have words := (Outline.isWord_of_writesMonomial h).2
    rcases words ⟨.opening, i⟩ (whole ▸ List.mem_cons_self) with ⟨x, eq⟩ | ⟨ds, eq⟩ <;> cases eq
  | group h =>
    obtain ⟨rfl, -⟩ := List.append_inj' (List.cons.inj whole).2 rfl
    exact ⟨_, rfl, h⟩
  | plus | minus => cases (List.cons.inj whole).1

/-! ## Tokens with an operand in parentheses -/

/-- The tokens in parentheses, moved to make room for the first one. -/
def parenthesized (i j : Nat) (us : List Token) : List Token :=
  ⟨.opening, i⟩ :: (us.map (Token.relocate (· + 1)) ++ [⟨.closing, j⟩])

theorem moves_add (n : Nat) (ts : List Token) : Moves (· + n) ts :=
  fun t _ => Nat.add_right_comm t.start (byteLength t.chars) n

theorem moves_sub (n : Nat) (ts : List Token) : Moves (· - n) (ts.map (Token.relocate (· + n))) := by
  refine List.forall_mem_map.2 fun t _ => ?_
  show t.start + n + byteLength t.chars - n = t.start + n - n + byteLength t.chars
  omega

theorem map_relocate_sub (n : Nat) (ts : List Token) :
    (ts.map (Token.relocate (· + n))).map (Token.relocate (· - n)) = ts := by
  rw [List.map_map]
  refine (List.map_congr_left fun t _ => ?_).trans (List.map_id ts)
  exact congrArg (Token.mk t.lexeme) (Nat.add_sub_cancel t.start n)

theorem map_relocate_add (m n : Nat) (ts : List Token) :
    (ts.map (Token.relocate (· + m))).map (Token.relocate (· + n)) =
      ts.map (Token.relocate (· + (m + n))) := by
  rw [List.map_map]
  exact List.map_congr_left fun t _ => congrArg (Token.mk t.lexeme) (Nat.add_assoc t.start m n)

theorem map_relocate_parenthesized (i j n : Nat) (us : List Token) :
    (parenthesized i j us).map (Token.relocate (· + n)) =
      parenthesized (i + n) (j + n) (us.map (Token.relocate (· + n))) := by
  rw [parenthesized, List.map_cons, List.map_append, map_relocate_add, Nat.add_comm,
    ← map_relocate_add]
  rfl

section

variable {ts us vs : List Token} {i j : Nat}

theorem StandsBetween.parenthesized (h : StandsBetween ts vs us) (i j : Nat) :
    StandsBetween ts (vs.map (Token.relocate (· + 2))) (parenthesized i j us) where
  unsigned := by
    refine List.forall_mem_cons.2 ⟨rfl, List.forall_mem_append.2 ⟨?_, ?_⟩⟩
    · exact List.forall_mem_map.2 h.unsigned
    · exact List.forall_mem_singleton.2 rfl
  before := h.before
  after := by
    cases vs with
    | nil => exact nofun
    | cons v vs => exact fun t ht => Option.some.inj ht ▸ h.after v rfl
  plain := by
    obtain ⟨left, right⟩ := List.forall_mem_append.1 h.plain
    exact List.forall_mem_append.2 ⟨left, List.forall_mem_map.2 right⟩

/-- An operand may be put in parentheses, and is then a group. -/
theorem Derives.exists_wrapped {f : Formula} (h : Derives .sum f (ts ++ us ++ vs))
    (operand : StandsBetween ts vs us) (nonempty : us ≠ [])
    (plain : ∀ t ∈ us, ¬t.IsParenthesis) (i j : Nat) :
    ∃ g, f.Wraps g ∧ Derives .sum g
      (ts ++ parenthesized i j us ++ vs.map (Token.relocate (· + 2))) := by
  refine h.replaceable Formula.congruent_wraps nonempty ?_ ts vs rfl operand (moves_add 2 vs)
  intro g derives
  obtain ⟨n, ps, rfl, -⟩ := derives.eq_monomial plain operand.unsigned
  have body := derives.relocate (moves_add 1 us)
  exact ⟨_, .monomial n ps, .group (.product (.factor body))⟩

/-- Parentheses around an operand may be left out. -/
theorem Derives.exists_unwrapped {g : Formula}
    (h : Derives .sum g (ts ++ parenthesized i j us ++ vs.map (Token.relocate (· + 2))))
    (operand : StandsBetween ts vs us) (plain : ∀ t ∈ us, ¬t.IsParenthesis) :
    ∃ f, f.Wraps g ∧ Derives .sum f (ts ++ us ++ vs) := by
  have moved : ∀ t ∈ us.map (Token.relocate (· + 1)),
      ¬t.IsParenthesis ∧ t.lexeme.isOperator = false :=
    List.forall_mem_map.2 fun t ht => ⟨plain t ht, operand.unsigned t ht⟩
  have replace : ∀ g, Derives .factor g (parenthesized i j us) →
      ∃ f, f.Wraps g ∧ Derives .factor f us := by
    intro g derives
    obtain ⟨body, rfl, inner⟩ := derives.eq_group
    obtain ⟨n, ps, rfl, monomial⟩ :=
      inner.eq_monomial (fun t ht => (moved t ht).1) fun t ht => (moved t ht).2
    have back := monomial.relocate (moves_sub 1 us)
    rw [map_relocate_sub] at back
    exact ⟨_, .monomial n ps, .monomial back⟩
  obtain ⟨f, wraps, derives⟩ := h.replaceable Formula.congruent_wraps_flip (List.cons_ne_nil _ _)
    replace ts _ rfl (operand.parenthesized i j) (moves_sub 2 vs)
  rw [map_relocate_sub] at derives
  exact ⟨f, wraps, derives⟩

/-- Nothing is written with empty parentheses. -/
theorem Derives.ne_nil_of_parenthesized {g : Formula}
    (h : Derives .sum g (ts ++ parenthesized i j us ++ vs))
    (operand : StandsBetween ts vs (parenthesized i j us)) : us ≠ [] := by
  have congruent : Formula.Congruent fun _ _ => us ≠ [] :=
    ⟨id, id, fun _ => id, fun _ => id, fun _ => id, fun _ => id, fun _ => id, fun _ => id⟩
  have replace : ∀ g, Derives .factor g (parenthesized i j us) →
      ∃ g', us ≠ [] ∧ Derives .factor g' (parenthesized i j us) := by
    -- The factor is replaced by itself. Only that there is one matters.
    intro g derives
    refine ⟨g, ?_, derives⟩
    rintro rfl
    obtain ⟨body, -, inner⟩ := derives.eq_group
    exact inner.ne_nil rfl
  have moves : Moves id vs := fun _ _ => rfl
  obtain ⟨-, nonempty, -⟩ :=
    h.replaceable congruent (List.cons_ne_nil _ _) replace ts vs rfl operand moves
  exact nonempty

end

/-! ## Texts with an operand in parentheses -/

/-- The text has no parentheses. -/
def IsFlatText (text : String) : Prop := ∀ c ∈ text.toList, c ≠ '(' ∧ c ≠ ')'

instance : DecidablePred IsFlatText := fun text => List.decidableBAll _ text.toList

/-- In the text `left ++ operand ++ right`, the part `operand` has no operators and stands between
two of them, or at an end of the text. -/
structure IsOperand (left operand right : String) : Prop where
  unsigned : ∀ t ∈ significantTokens operand, t.lexeme.isOperator = false
  before : ∀ t ∈ (significantTokens left).getLast?, t.lexeme.isOperator = true
  after : ∀ t ∈ (significantTokens right).head?, t.lexeme.isOperator = true

/-- The text in parentheses. -/
def inParentheses (text : String) : String := "(" ++ text ++ ")"

theorem isFlatText_append {s t : String} :
    IsFlatText (s ++ t) ↔ IsFlatText s ∧ IsFlatText t := by
  rw [IsFlatText, String.toList_append, List.forall_mem_append]
  rfl

theorem IsFlatText.not_isParenthesis {text : String} (h : IsFlatText text) :
    ∀ t ∈ significantTokens text, ¬t.IsParenthesis := by
  intro t ht
  have inside : ∀ c ∈ t.chars, c ∈ text.toList := by
    intro c hc
    rw [← charsOf_tokenize]
    exact List.mem_flatMap.2 ⟨t, (List.mem_filter.1 ht).1, hc⟩
  rw [Token.chars] at inside
  rintro (opening | closing)
  · rw [opening] at inside
    exact (h _ (inside _ List.mem_cons_self)).1 rfl
  · rw [closing] at inside
    exact (h _ (inside _ List.mem_cons_self)).2 rfl

/-- The significant tokens of `t`, where it stands behind `s`. -/
def behind (s t : String) : List Token :=
  (significantTokens t).map (Token.relocate (· + byteLength s.toList))

theorem significantTokens_inParentheses (text : String) :
    significantTokens (inParentheses text) =
      parenthesized 0 (byteLength text.toList + 1) (significantTokens text) := by
  have opening : lexemes "(".toList = [.opening] := by decide
  have closing : lexemes ")".toList = [.closing] := by decide
  have first : ∀ ds, (lexemes "(".toList).getLast? = some (.digits ds) →
      NoDigits (lexemes text.toList) := by
    rw [opening]
    exact nofun
  have last : NoDigits (lexemes ")".toList) := by
    rw [closing]
    exact nofun
  have opening : significantTokens "(" = [⟨.opening, 0⟩] := by decide
  have closing : significantTokens ")" = [⟨.closing, 0⟩] := by decide
  have length : byteLength ("(" ++ text).toList = byteLength text.toList + 1 := by
    rw [String.toList_append, byteLength_append, Nat.add_comm]
    rfl
  rw [inParentheses, significantTokens_append fun _ _ => last, significantTokens_append first,
    length, opening, closing, parenthesized, List.map_singleton, Token.relocate, Nat.zero_add]
  rfl

theorem behind_inParentheses (s t : String) : behind s (inParentheses t) =
    parenthesized (byteLength s.toList) (byteLength t.toList + 1 + byteLength s.toList)
      (behind s t) := by
  rw [behind, significantTokens_inParentheses, map_relocate_parenthesized, Nat.zero_add]
  rfl

namespace IsOperand

variable {left operand right : String}

theorem significantTokens_eq (h : IsOperand left operand right) (middle : String) :
    significantTokens (left ++ middle ++ right) =
      significantTokens left ++ behind left middle ++ behind (left ++ middle) right := by
  have last : ∀ ds, (lexemes left.toList).getLast? = some (.digits ds) →
      NoDigits (lexemes middle.toList) := by
    intro ds digits
    obtain ⟨ls, eq⟩ := List.getLast?_eq_some_iff.1 digits
    have tokens : significantTokens left = Token.significant 0 (ls ++ [.digits ds]) := by
      rw [← eq]
      rfl
    have operator := h.before
    rw [tokens, Token.significant_append] at operator
    cases operator _ List.getLast?_concat
  have first : NoDigits (lexemes right.toList) := by
    intro ds ms eq
    have tokens : significantTokens right = Token.significant 0 (.digits ds :: ms) := by
      rw [← eq]
      rfl
    have operator := h.after
    rw [tokens] at operator
    cases operator _ rfl
  rw [significantTokens_append fun _ _ => first, significantTokens_append last, behind, behind]

/-- With the operand in parentheses, its tokens are moved by one byte, and those behind it by
two. -/
theorem significantTokens_parenthesized (h : IsOperand left operand right) :
    significantTokens (left ++ inParentheses operand ++ right) = significantTokens left ++
      parenthesized (byteLength left.toList) (byteLength operand.toList + 1 + byteLength left.toList)
        (behind left operand) ++
      (behind (left ++ operand) right).map (Token.relocate (· + 2)) := by
  have length : byteLength (left ++ inParentheses operand).toList =
      byteLength (left ++ operand).toList + 2 := by
    simp only [inParentheses, String.toList_append, byteLength_append]
    have opening : byteLength "(".toList = 1 := rfl
    have closing : byteLength ")".toList = 1 := rfl
    omega
  have moved : behind (left ++ inParentheses operand) right =
      (behind (left ++ operand) right).map (Token.relocate (· + 2)) := by
    rw [behind, behind, map_relocate_add, length]
  rw [h.significantTokens_eq, behind_inParentheses, moved]

theorem significantTokens_wrapped (h : IsOperand left operand right) :
    ∃ i j, significantTokens (left ++ inParentheses operand ++ right) = significantTokens left ++
      parenthesized i j (behind left operand) ++
      (behind (left ++ operand) right).map (Token.relocate (· + 2)) :=
  ⟨_, _, h.significantTokens_parenthesized⟩

theorem standsBetween (h : IsOperand left operand right)
    (flat : IsFlatText (left ++ operand ++ right)) :
    StandsBetween (significantTokens left) (behind (left ++ operand) right)
      (behind left operand) where
  unsigned := List.forall_mem_map.2 h.unsigned
  before := h.before
  after := by
    intro t first
    rw [behind, List.head?_map] at first
    obtain ⟨u, head, rfl⟩ := Option.map_eq_some_iff.1 first
    exact h.after u head
  plain := by
    obtain ⟨flat_left, flat_right⟩ := isFlatText_append.1 flat
    refine List.forall_mem_append.2 ⟨(isFlatText_append.1 flat_left).1.not_isParenthesis, ?_⟩
    exact List.forall_mem_map.2 flat_right.not_isParenthesis

end IsOperand

section

variable {left operand right : String}

theorem not_isParenthesis_behind (flat : IsFlatText (left ++ operand ++ right)) :
    ∀ t ∈ behind left operand, ¬t.IsParenthesis :=
  List.forall_mem_map.2
    (isFlatText_append.1 (isFlatText_append.1 flat).1).2.not_isParenthesis

theorem behind_eq_nil_iff : behind left operand = [] ↔ IsBlankText operand :=
  List.map_eq_nil_iff.trans isBlankText_iff.symm

theorem Writes.exists_wrapped {f : Formula} (writes : Writes f (left ++ operand ++ right))
    (flat : IsFlatText (left ++ operand ++ right)) (h : IsOperand left operand right)
    (nonblank : ¬IsBlankText operand) :
    ∃ g, f.Wraps g ∧ Writes g (left ++ inParentheses operand ++ right) := by
  obtain ⟨i, j, tokens⟩ := h.significantTokens_wrapped
  rw [Writes, h.significantTokens_eq] at writes
  obtain ⟨g, wraps, derives⟩ := Derives.exists_wrapped writes (h.standsBetween flat)
    (mt behind_eq_nil_iff.1 nonblank) (not_isParenthesis_behind flat) i j
  rw [← tokens] at derives
  exact ⟨g, wraps, derives⟩

theorem Writes.exists_unwrapped {g : Formula}
    (writes : Writes g (left ++ inParentheses operand ++ right))
    (flat : IsFlatText (left ++ operand ++ right)) (h : IsOperand left operand right) :
    ¬IsBlankText operand ∧ ∃ f, f.Wraps g ∧ Writes f (left ++ operand ++ right) := by
  obtain ⟨i, j, tokens⟩ := h.significantTokens_wrapped
  have between := h.standsBetween flat
  rw [Writes, tokens] at writes
  have nonempty := Derives.ne_nil_of_parenthesized writes (between.parenthesized i j)
  obtain ⟨f, wraps, derives⟩ :=
    Derives.exists_unwrapped writes between (not_isParenthesis_behind flat)
  refine ⟨mt behind_eq_nil_iff.2 nonempty, f, wraps, ?_⟩
  rw [Writes, h.significantTokens_eq]
  exact derives

/-- A text without parentheses is written for a formula without groups. -/
theorem Writes.depth_eq_zero {f : Formula} {text : String} (writes : Writes f text)
    (flat : IsFlatText text) : f.depth = 0 :=
  Derives.depth_eq_zero writes flat.not_isParenthesis

theorem not_isBlankText_parentheses :
    ¬IsBlankText (left ++ inParentheses operand ++ right) := by
  intro blank
  have opening : '(' ∈ (left ++ inParentheses operand ++ right).toList := by
    simp [inParentheses, String.toList_append]
  cases blank _ opening

theorem not_isBlankText_operand (nonblank : ¬IsBlankText operand) :
    ¬IsBlankText (left ++ operand ++ right) := by
  intro blank
  refine nonblank fun c hc => blank c ?_
  simp [String.toList_append, hc]

end

namespace Expression

/-- What is written for a formula is parsed as the polynomial of the formula, if there is one. -/
theorem parse_eq_ok_iff {options : Options} {f : Formula} {text : String} (h : Writes f text)
    (small : f.depth ≤ options.maxDepth) {e : Expression} :
    (parse options text).outcome = .ok e ↔ f.polynomial? = some e.polynomial := by
  rw [(parse_computes h small).eq_ok_iff, Option.map_eq_some_iff]
  constructor
  · rintro ⟨p, eq, rfl⟩
    exact eq
  · exact fun eq => ⟨_, eq, rfl⟩

/-- With an operand in a group, what is written is parsed exactly if it fits up to products in
which a factor vanishes. -/
theorem parse_wrapped_iff {f g : Formula} {s t : String} (hs : Writes f s) (ht : Writes g t)
    (wraps : f.Wraps g) (flat : f.depth = 0) {e : Expression} :
    (parse .default t).outcome = .ok e ↔ f.FitsUnlessZero ∧ e.polynomial.Represents f := by
  have depth := wraps.depth_eq flat
  have small : g.depth ≤ Options.default.maxDepth := depth ▸ by decide
  have polynomial : g.polynomial? = f.resolve := by
    rw [Formula.polynomial?, if_neg (by rw [depth]; decide), wraps.resolve_eq]
  rw [parse_eq_ok_iff ht small, polynomial, Formula.resolve_eq_some_iff hs.lettered,
    resolves_iff hs flat]

variable {left operand right : String}

/-- A text without parentheses and the text with one of its operands in parentheses are parsed
alike, unless the operand is blank or there are exponents that are too large. With the parentheses,
such exponents are accepted in products in which a factor vanishes. -/
theorem parse_parenthesized_iff (flat : IsFlatText (left ++ operand ++ right))
    (h : IsOperand left operand right) (e : Expression) :
    (parse .default (left ++ inParentheses operand ++ right)).outcome = .ok e ↔
      ¬IsBlankText operand ∧ ((parse .default (left ++ operand ++ right)).outcome = .ok e ∨
        (∃ place, (parse .default (left ++ operand ++ right)).outcome =
          .error (.exponentTooLarge place)) ∧
        ∃ f, Writes f (left ++ operand ++ right) ∧ f.FitsUnlessZero ∧
          e.polynomial.Represents f) := by
  constructor
  · intro accepted
    obtain ⟨g, wrapped, -⟩ := (wellFormed_of_parse accepted).resolve_left not_isBlankText_parentheses
    obtain ⟨nonblank, f, wraps, writes⟩ := wrapped.exists_unwrapped flat h
    have shallow := writes.depth_eq_zero flat
    have small : f.depth ≤ Options.default.maxDepth := shallow ▸ Nat.zero_le _
    obtain ⟨fits, represents⟩ := (parse_wrapped_iff writes wrapped wraps shallow).1 accepted
    refine ⟨nonblank, ?_⟩
    rcases parse_yields writes small with ⟨d, eq, same⟩ | ⟨-, large⟩
    · obtain rfl : d = e := congrArg Expression.mk (same.unique represents)
      exact .inl eq
    · exact .inr ⟨large, f, writes, fits, represents⟩
  · rintro ⟨nonblank, accepted | ⟨-, f, writes, fits, represents⟩⟩
    · obtain ⟨f, writes, small⟩ :=
        (wellFormed_of_parse accepted).resolve_left (not_isBlankText_operand nonblank)
      have shallow := writes.depth_eq_zero flat
      -- What can be multiplied out can also be resolved, with the same polynomial.
      have polynomial := (parse_eq_ok_iff writes small).1 accepted
      have fits := (resolves_iff writes shallow).1
        (Formula.resolves_of_polynomial? writes.lettered ⟨_, polynomial⟩)
      obtain ⟨g, wraps, wrapped⟩ := writes.exists_wrapped flat h nonblank
      exact (parse_wrapped_iff writes wrapped wraps shallow).2
        ⟨fits, Formula.represents_of_polynomial? writes.lettered polynomial⟩
    · obtain ⟨g, wraps, wrapped⟩ := writes.exists_wrapped flat h nonblank
      exact (parse_wrapped_iff writes wrapped wraps (writes.depth_eq_zero flat)).2
        ⟨fits, represents⟩

/-- The number 0 times powers of one name that are too large together. -/
theorem parse_zero_factor :
    (parse .default ("" ++ "0" ++ "*a1000*a")).outcome = .error (.exponentTooLarge ⟨7, 8⟩) ∧
    (parse .default ("" ++ inParentheses "0" ++ "*a1000*a")).outcome = .ok ⟨.zero⟩ := by
  decide +kernel

/-- With the number 0 in parentheses, what is multiplied by it is accepted. -/
theorem parse_parenthesized_iff_zero :
    IsFlatText ("" ++ "0" ++ "*a1000*a") ∧ IsOperand "" "0" "*a1000*a" ∧
    ∃ f, Writes f ("" ++ "0" ++ "*a1000*a") ∧ f.FitsUnlessZero ∧ Polynomial.zero.Represents f := by
  have flat : IsFlatText ("" ++ "0" ++ "*a1000*a") := by decide
  have operand : IsOperand "" "0" "*a1000*a" := ⟨by decide, by decide, by decide⟩
  obtain ⟨large, parsed⟩ := parse_zero_factor
  refine ⟨flat, operand, ?_⟩
  rcases ((parse_parenthesized_iff flat operand _).1 parsed).2 with accepted | ⟨-, zero⟩
  · cases large.symm.trans accepted
  · exact zero

/-- Parentheses around an operand can make a difference: around the number 0, and around a blank. -/
theorem parse_parenthesized_ne :
    (IsFlatText ("" ++ "0" ++ "*a1000*a") ∧ IsOperand "" "0" "*a1000*a" ∧
      ¬∀ e, (parse .default ("" ++ "0" ++ "*a1000*a")).outcome = .ok e ↔
        (parse .default ("" ++ inParentheses "0" ++ "*a1000*a")).outcome = .ok e) ∧
    (IsFlatText ("a+" ++ " " ++ "-b") ∧ IsOperand "a+" " " "-b" ∧
      ¬∀ e, (parse .default ("a+" ++ " " ++ "-b")).outcome = .ok e ↔
        (parse .default ("a+" ++ inParentheses " " ++ "-b")).outcome = .ok e) := by
  refine ⟨⟨by decide, ⟨by decide, by decide, by decide⟩, fun alike => ?_⟩,
    ⟨by decide, ⟨by decide, by decide, by decide⟩, fun alike => ?_⟩⟩
  · obtain ⟨large, parsed⟩ := parse_zero_factor
    cases large.symm.trans ((alike _).2 parsed)
  · have parsed : (parse .default ("a+" ++ " " ++ "-b")).outcome =
        .ok ⟨⟨[⟨1, ⟨[('a', 1)]⟩⟩, ⟨-1, ⟨[('b', 1)]⟩⟩]⟩⟩ := by cbv
    have empty : (parse .default ("a+" ++ inParentheses " " ++ "-b")).outcome =
        .error (.emptyParenthesis ⟨2, 5⟩) := by decide +kernel
    cases empty.symm.trans ((alike _).1 parsed)

end Expression

end Expansion
