import Expansion.Proofs.Outlines
import Expansion.Proofs.Tokens

/-!
# Replacing an operand

**Theorem (`Derives.replaceable`).** If tokens are written for a formula and an operand in them is
replaced by another one, the new tokens are written for the formula with the operand's part
replaced. The tokens behind the operand may be moved.

An operand is what stands between two operators. Where tokens are cut at an operator, the operand is
on one of the two sides as a whole (`exists_side`), so a derivation can be followed down to the
factor that the operand is. Nothing else of the derivation changes: it is about which tokens there
are and which of them touch, and tokens that are moved together still touch (`Derives.relocate`).
-/

namespace Expansion

/-! ## Moving tokens -/

/-- The tokens are as long after they are moved. -/
def Moves (ψ : Nat → Nat) (ts : List Token) : Prop :=
  ∀ t ∈ ts, ψ t.stop = ψ t.start + byteLength t.chars

theorem Touching.relocate {ψ : Nat → Nat} {ts : List Token} (h : Touching ts) (moves : Moves ψ ts) :
    Touching (ts.map (Token.relocate ψ)) := by
  induction ts with
  | nil => exact .nil
  | cons t ts ih =>
    obtain ⟨first, others⟩ := List.forall_mem_cons.1 moves
    obtain ⟨head, tail⟩ := List.isChain_cons.1 h
    refine List.isChain_cons.2 ⟨?_, ih tail others⟩
    cases ts with
    | nil => exact nofun
    | cons u us =>
      intro v next
      obtain rfl := Option.some.inj next
      exact first.symm.trans (congrArg ψ (head u rfl))

theorem WritesPowers.relocate {ps : List (Char × Nat)} {ts : List Token} (h : WritesPowers ps ts)
    (ψ : Nat → Nat) : WritesPowers ps (ts.map (Token.relocate ψ)) := by
  induction h with
  | nil => exact .nil
  | bare lower _ ih => exact .bare lower ih
  | raised lower _ ih => exact .raised lower ih

theorem WritesMonomial.relocate {c : Nat} {ps : List (Char × Nat)} {ts : List Token}
    (h : WritesMonomial c ps ts) {ψ : Nat → Nat} (moves : Moves ψ ts) :
    WritesMonomial c ps (ts.map (Token.relocate ψ)) := by
  cases h with
  | bare powers nonempty touching =>
    exact .bare (powers.relocate ψ) (mt List.map_eq_nil_iff.1 nonempty) (touching.relocate moves)
  | scaled powers touching => exact .scaled (powers.relocate ψ) (touching.relocate moves)

/-- Tokens that are moved together are written for the same formula. -/
theorem Derives.relocate {c : Category} {f : Formula} {ts : List Token} (h : Derives c f ts)
    {ψ : Nat → Nat} (moves : Moves ψ ts) : Derives c f (ts.map (Token.relocate ψ)) := by
  induction h with
  | monomial h => exact .monomial (h.relocate moves)
  | group _ ih =>
    have body := (List.forall_mem_append.1 (List.forall_mem_cons.1 moves).2).1
    rw [List.map_cons, List.map_append]
    exact .group (ih body)
  | plus _ ih => exact .plus (ih (List.forall_mem_cons.1 moves).2)
  | minus _ ih => exact .minus (ih (List.forall_mem_cons.1 moves).2)
  | factor _ ih => exact .factor (ih moves)
  | product _ ih => exact .product (ih moves)
  | mul _ _ ih ih' | add _ _ ih ih' | sub _ _ ih ih' =>
    obtain ⟨left, right⟩ := List.forall_mem_append.1 moves
    have left := ih left
    have right := ih' (List.forall_mem_cons.1 right).2
    rw [List.map_append, List.map_cons]
    first
      | exact .mul left right
      | exact .add left right
      | exact .sub left right

/-! ## Operands -/

namespace Token

/-- The token is a parenthesis. -/
def IsParenthesis (t : Token) : Prop := t.lexeme = .opening ∨ t.lexeme = .closing

end Token

/-- The tokens `us` have no operators, and stand between operators of a text that has no other
parentheses than those in `us`. -/
structure StandsBetween (ts vs us : List Token) : Prop where
  unsigned : ∀ t ∈ us, t.lexeme.isOperator = false
  before : ∀ t ∈ ts.getLast?, t.lexeme.isOperator = true
  after : ∀ t ∈ vs.head?, t.lexeme.isOperator = true
  plain : ∀ t ∈ ts ++ vs, ¬t.IsParenthesis

/-- An operator in a sequence of tokens is before or after an operand of it. -/
theorem exists_side {ls rs ts us vs : List Token} {o : Token} (h : ls ++ o :: rs = ts ++ us ++ vs)
    (not_mem : o ∉ us) : (∃ ws, ls = ts ++ us ++ ws ∧ vs = ws ++ o :: rs) ∨
      ∃ ws, rs = ws ++ us ++ vs ∧ ts = ls ++ o :: ws := by
  rcases List.append_eq_append_iff.1 h with ⟨ws, left, right⟩ | ⟨ws, left, right⟩
  · cases ws with
    | nil => exact .inl ⟨[], by rw [left, List.append_nil, List.append_nil], right.symm⟩
    | cons w ws =>
      obtain ⟨rfl, rfl⟩ := List.cons.inj right
      rcases List.append_eq_append_iff.1 left with ⟨xs, -, inside⟩ | ⟨xs, before, inside⟩
      · exact absurd (inside ▸ List.mem_append_right _ List.mem_cons_self) not_mem
      · cases xs with
        | nil =>
          have starts : us = o :: ws := inside.symm
          exact absurd (starts ▸ List.mem_cons_self) not_mem
        | cons x xs =>
          obtain ⟨rfl, rfl⟩ := List.cons.inj inside
          exact .inr ⟨xs, rfl, before⟩
  · exact .inl ⟨ws, left, right⟩

namespace StandsBetween

variable {ts us vs ls rs : List Token} {o : Token}

theorem not_mem (h : StandsBetween ts vs us) (operator : o.lexeme.isOperator = true) : o ∉ us := by
  intro mem
  rw [h.unsigned o mem] at operator
  cases operator

theorem left (h : StandsBetween ts (rs ++ o :: ls) us) : StandsBetween ts rs us where
  unsigned := h.unsigned
  before := h.before
  after := by
    cases rs with
    | nil => exact nofun
    | cons r rs => exact h.after
  plain := fun t ht => h.plain t (List.append_assoc .. ▸ List.mem_append_left _ ht)

theorem right (h : StandsBetween (ls ++ o :: rs) vs us) : StandsBetween rs vs us where
  unsigned := h.unsigned
  before := by
    cases rs with
    | nil => exact nofun
    | cons r rs =>
      intro t ht
      apply h.before
      rw [List.getLast?_append, List.getLast?_cons_cons]
      exact ht ▸ rfl
  after := h.after
  plain := fun t ht => h.plain t (by simp at ht ⊢; tauto)

/-- Tokens without operators between operators are all the tokens if there are no operators. -/
theorem eq_of_unsigned (h : StandsBetween ts vs us)
    (unsigned : ∀ t ∈ ts ++ us ++ vs, t.lexeme.isOperator = false) : ts = [] ∧ vs = [] := by
  constructor
  · rw [← List.getLast?_eq_none_iff, Option.eq_none_iff_forall_ne_some]
    intro t last
    have mem : t ∈ ts ++ us ++ vs := by simp [List.mem_of_getLast? last]
    cases (h.before t last).symm.trans (unsigned t mem)
  · rw [← List.head?_eq_none_iff, Option.eq_none_iff_forall_ne_some]
    intro t first
    have mem : t ∈ ts ++ us ++ vs := by simp [List.mem_of_head? first]
    cases (h.after t first).symm.trans (unsigned t mem)

end StandsBetween

/-! ## Replacing -/

/-- The relation is kept where formulas are parts of larger ones, other than groups. -/
structure Formula.Congruent (P : Formula → Formula → Prop) : Prop where
  plus : ∀ {f g}, P f g → P (plus f) (plus g)
  minus : ∀ {f g}, P f g → P (minus f) (minus g)
  mul_left : ∀ {f g} (h), P f g → P (mul f h) (mul g h)
  mul_right : ∀ {f g} (h), P f g → P (mul h f) (mul h g)
  add_left : ∀ {f g} (h), P f g → P (add f h) (add g h)
  add_right : ∀ {f g} (h), P f g → P (add h f) (add h g)
  sub_left : ∀ {f g} (h), P f g → P (sub f h) (sub g h)
  sub_right : ∀ {f g} (h), P f g → P (sub h f) (sub h g)

section

variable {P : Formula → Formula → Prop} {ψ : Nat → Nat} {us ws ls rs : List Token}
  {c c' : Category} {f g : Formula} {i : Nat} {op : Operator}

/-- Where `us` is an operand of the tokens, it may be replaced by `ws`, and what stands behind it
may be moved. -/
def Replaceable (P : Formula → Formula → Prop) (ψ : Nat → Nat) (us ws : List Token) (c : Category)
    (f : Formula) (all : List Token) : Prop :=
  ∀ ts vs, ts ++ us ++ vs = all → StandsBetween ts vs us → Moves ψ vs →
    ∃ g, P f g ∧ Derives c g (ts ++ ws ++ vs.map (Token.relocate ψ))

theorem replaceable_of_words (words : ∀ t ∈ ls, Outline.IsWord t)
    (replace : ls = us → ∃ g, P f g ∧ Derives c g ws) : Replaceable P ψ us ws c f ls := by
  rintro ts vs rfl operand -
  have unsigned : ∀ t ∈ ts ++ us ++ vs, t.lexeme.isOperator = false := by
    intro t ht
    rcases words t ht with ⟨x, eq⟩ | ⟨ds, eq⟩ <;> rw [eq] <;> rfl
  obtain ⟨rfl, rfl⟩ := operand.eq_of_unsigned unsigned
  obtain ⟨g, related, derives⟩ := replace (List.append_nil us)
  refine ⟨g, related, ?_⟩
  rwa [List.map_nil, List.append_nil]

/-- An operand of a group, outside of which there are no parentheses, is the group. -/
theorem replaceable_of_group {j : Nat}
    (replace : ⟨.opening, i⟩ :: (ls ++ [⟨.closing, j⟩]) = us → ∃ g, P f g ∧ Derives c g ws) :
    Replaceable P ψ us ws c f (⟨.opening, i⟩ :: (ls ++ [⟨.closing, j⟩])) := by
  intro ts vs whole operand _
  obtain rfl : ts = [] := by
    cases ts with
    | nil => rfl
    | cons t ts =>
      obtain ⟨rfl, -⟩ := List.cons.inj whole
      exact absurd (.inl rfl) (operand.plain _ List.mem_cons_self)
  obtain rfl : vs = [] := by
    rcases List.eq_nil_or_concat' vs with rfl | ⟨vs, v, rfl⟩
    · rfl
    · rw [← List.cons_append, ← List.append_assoc] at whole
      obtain ⟨-, last⟩ := List.append_inj' whole rfl
      obtain rfl := List.singleton_inj.1 last
      exact absurd (.inr rfl) (operand.plain ⟨.closing, j⟩ (by simp))
  obtain ⟨g, related, derives⟩ := replace (whole.symm.trans (List.append_nil us))
  refine ⟨g, related, ?_⟩
  rwa [List.map_nil, List.append_nil]

theorem Replaceable.sign {f' : Formula} (nonempty : us ≠ [])
    (h : Replaceable P ψ us ws .factor f ls)
    (related : ∀ g, P f g → ∃ g', P f' g' ∧ ∀ ts i, Derives .factor g ts →
      Derives .factor g' (⟨.operator op, i⟩ :: ts)) :
    Replaceable P ψ us ws .factor f' (⟨.operator op, i⟩ :: ls) := by
  intro ts vs whole operand moves
  have side : [] ++ ⟨.operator op, i⟩ :: ls = ts ++ us ++ vs := whole.symm
  rcases exists_side side (operand.not_mem rfl) with ⟨xs, empty, -⟩ | ⟨xs, rfl, rfl⟩
  · simp_all
  · obtain ⟨g, hg, derives⟩ := h xs vs rfl operand.right moves
    obtain ⟨g', hg', sign⟩ := related g hg
    exact ⟨g', hg', sign _ _ derives⟩

theorem Replaceable.operator {F : Formula → Formula → Formula}
    (left : Replaceable P ψ us ws c f ls) (right : Replaceable P ψ us ws c' g rs)
    (hf : Derives c f ls) (hg : Derives c' g rs)
    (related_left : ∀ f', P f f' → P (F f g) (F f' g))
    (related_right : ∀ g', P g g' → P (F f g) (F f g'))
    (operator : ∀ {f g ts us i}, Derives c f ts → Derives c' g us →
      Derives c (F f g) (ts ++ ⟨.operator op, i⟩ :: us)) :
    Replaceable P ψ us ws c (F f g) (ls ++ ⟨.operator op, i⟩ :: rs) := by
  intro ts vs whole operand moves
  rcases exists_side whole.symm (operand.not_mem rfl) with ⟨xs, rfl, rfl⟩ | ⟨xs, rfl, rfl⟩
  · obtain ⟨moves_left, moves_right⟩ := List.forall_mem_append.1 moves
    obtain ⟨f', hf', derives⟩ := left ts xs rfl operand.left moves_left
    have behind := hg.relocate (List.forall_mem_cons.1 moves_right).2
    refine ⟨F f' g, related_left f' hf', ?_⟩
    rw [List.map_append, List.map_cons, ← List.append_assoc]
    exact operator derives behind
  · obtain ⟨g', hg', derives⟩ := right xs vs rfl operand.right moves
    refine ⟨F f g', related_right g' hg', ?_⟩
    rw [List.append_assoc, List.append_assoc, List.cons_append, ← List.append_assoc xs]
    exact operator hf derives

/-- An operand may be replaced by another one. -/
theorem Derives.replaceable (h : Derives c f ls) (congruent : Formula.Congruent P)
    (nonempty : us ≠ [])
    (replace : ∀ g, Derives .factor g us → ∃ g', P g g' ∧ Derives .factor g' ws) :
    Replaceable P ψ us ws c f ls := by
  induction h with
  | monomial h =>
    have words := (Outline.isWord_of_writesMonomial h).2
    exact replaceable_of_words words fun eq => replace _ (eq ▸ .monomial h)
  | group h => exact replaceable_of_group fun eq => replace _ (eq ▸ .group h)
  | plus _ ih => exact ih.sign nonempty fun g hg => ⟨_, congruent.plus hg, fun _ _ => .plus⟩
  | minus _ ih => exact ih.sign nonempty fun g hg => ⟨_, congruent.minus hg, fun _ _ => .minus⟩
  | factor _ ih =>
    intro ts vs whole operand moves
    obtain ⟨g, hg, derives⟩ := ih ts vs whole operand moves
    exact ⟨g, hg, .factor derives⟩
  | product _ ih =>
    intro ts vs whole operand moves
    obtain ⟨g, hg, derives⟩ := ih ts vs whole operand moves
    exact ⟨g, hg, .product derives⟩
  | mul h h' ih ih' =>
    exact ih.operator ih' h h' (fun _ => congruent.mul_left _) (fun _ => congruent.mul_right _) .mul
  | add h h' ih ih' =>
    exact ih.operator ih' h h' (fun _ => congruent.add_left _) (fun _ => congruent.add_right _) .add
  | sub h h' ih ih' =>
    exact ih.operator ih' h h' (fun _ => congruent.sub_left _) (fun _ => congruent.sub_right _) .sub

end

end Expansion
