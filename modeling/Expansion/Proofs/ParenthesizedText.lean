import Mathlib
import Expansion.Proofs.Defects
import Expansion.Proofs.Slots
import Expansion.Proofs.SignedMonomials
import Expansion.Proofs.Spacing

/-!
# A text and the same text with parentheses

A text without parentheses is read as a sum of products (`outcome_parse_flat`). With one of its
operands in parentheses, there are a group and the items around it.

**Theorem (`outcome_parse_parenthesized`).** If the operand is not blank, first it is read as a
term, as without parentheses. Then the items around it are worked out together with its value.

The tokens before the operand stay where they are, those of the operand are moved by one byte, and
those behind it by two (`parenthesizing`). So what tokens are read as, errors included, is only
moved (`Relocation.Carries`).
-/

namespace Expansion

/-! ## Items side by side -/

namespace Item

variable {ν : Type} {ts : List Token}

theorem foldr_push_operator (ts : List Token) (op : Operator) (place : Span)
    (items : List (Item (Operand ν))) :
    ts.foldr push (.operator op place :: items) =
      ts.foldr push [] ++ .operator op place :: items := by
  induction ts with
  | nil => rfl
  | cons t ts ih => rw [List.foldr_cons, ih, List.foldr_cons, Outline.push_append]

/-- The items of tokens that end with an operator come before the others. -/
theorem foldr_push_of_last (last : ∀ t ∈ ts.getLast?, t.lexeme.isOperator = true)
    (items : List (Item (Operand ν))) : ts.foldr push items = ts.foldr push [] ++ items := by
  cases ts using List.reverseRecOn with
  | nil => rfl
  | append_singleton ts t =>
    obtain ⟨l, i⟩ := t
    have operator := last _ List.getLast?_concat
    cases l with
    | operator op =>
      rw [List.foldr_append, List.foldr_append]
      refine (foldr_push_operator ts op (Token.span ⟨.operator op, i⟩) items).trans ?_
      show _ = ts.foldr push (.operator op (Token.span ⟨.operator op, i⟩) :: []) ++ items
      rw [foldr_push_operator, List.append_assoc]
      rfl
    | _ => cases operator

/-- The items of tokens that start with an operator start with no run. -/
theorem isRun_head?_foldr_push (first : ∀ t ∈ ts.head?, t.lexeme.isOperator = true) :
    ∀ item ∈ (ts.foldr push ([] : List (Item (Operand ν)))).head?, item.isRun = false := by
  cases ts with
  | nil => exact nofun
  | cons t ts =>
    obtain ⟨l, i⟩ := t
    have operator := first _ rfl
    cases l with
    | operator op =>
      rintro item ⟨⟩
      rfl
    | _ => cases operator

end Item

/-! ## Tokens without parentheses -/

namespace Outline

variable {ts : List Token}

/-- The outline has the tokens and nothing else: no groups and no defects. -/
structure IsPlain (ts : List Token) (o : Outline) : Prop where
  closed : Closed ts o
  tokens : o.tokens = ts
  defect : ∀ maxDepth depth, o.defect? maxDepth depth = none
  items : ∀ after : Outline, (o.append after).itemsOf =
    after.itemsOf >>= fun items => .ok (ts.foldr Item.push items)

/-- Tokens without parentheses have an outline that is plain. -/
theorem exists_isPlain (plain : ∀ t ∈ ts, ¬t.IsParenthesis) : ∃ o, IsPlain ts o := by
  induction ts with
  | nil =>
    refine ⟨nil, .nil, rfl, fun _ _ => rfl, fun after => ?_⟩
    show after.itemsOf = after.itemsOf >>= fun items => .ok items
    cases after.itemsOf <;> rfl
  | cons t ts ih =>
    obtain ⟨first, others⟩ := List.forall_mem_cons.1 plain
    obtain ⟨o, h⟩ := ih others
    refine ⟨token t o, .token (fun opens => first (.inl opens)) (fun closes => first (.inr closes))
      h.closed, congrArg (t :: ·) h.tokens, fun maxDepth depth => ?_, fun after => ?_⟩
    · rw [defect?_plain first, h.defect]
    · rw [append, itemsOf_token, h.items]
      cases after.itemsOf <;> rfl

theorem IsPlain.itemsOf_eq {o : Outline} (h : IsPlain ts o) :
    o.itemsOf = .ok (ts.foldr Item.push []) := by
  have items := h.items nil
  rwa [append_nil] at items

theorem runs?_foldr_push (ts : List Token) (items : List (Item (Operand Value))) :
    Item.runs? (ts.foldr Item.push items) =
      (Item.runs? items).map fun runs => ts.foldr Item.push runs := by
  induction ts with
  | nil => exact Option.map_id'.symm
  | cons t ts ih =>
    rw [List.foldr_cons, Item.runs?_push, ih, Option.map_map]
    rfl

/-- Tokens without parentheses are read as a sum. -/
theorem valueOf_plain (ts : List Token) : valueOf (ts.foldr Item.push []) =
    Summands.read (Item.ofTokens ts) >>= fun p => .ok p.reduced := by
  have runs : Item.runs? (ts.foldr Item.push []) = some (Item.ofTokens ts) := runs?_foldr_push ts []
  rw [valueOf, runs]

end Outline

/-! ## Places in the text with parentheses -/

/-- The part of a text from `start` to `stop` gets parentheses around it. -/
def Relocation.parenthesize (start stop : Nat) : Relocation where
  start i := if i < start then i else if i < stop then i + 1 else i + 2
  stop i := if i ≤ start then i else if i ≤ stop then i + 1 else i + 2

/-- Where things go when the text `operand` behind `left` is put in parentheses. -/
def parenthesizing (left operand : String) : Relocation :=
  .parenthesize (byteLength left.toList) (byteLength left.toList + byteLength operand.toList)

theorem bounds_of_mem_significantTokens {text : String} {t : Token}
    (h : t ∈ significantTokens text) : t.start < t.stop ∧ t.stop ≤ byteLength text.toList :=
  have mem := (List.mem_filter.1 h).1
  ⟨start_lt_stop_of_mem_tokenize mem, stop_le_of_mem_tokenize mem⟩

theorem bounds_of_mem_behind {s text : String} {t : Token} (h : t ∈ behind s text) :
    byteLength s.toList ≤ t.start ∧ t.start < t.stop ∧
      t.stop ≤ byteLength s.toList + byteLength text.toList := by
  obtain ⟨u, hu, rfl⟩ := List.mem_map.1 h
  obtain ⟨lt, le⟩ := bounds_of_mem_significantTokens hu
  have stop : (u.relocate (· + byteLength s.toList)).stop = u.stop + byteLength s.toList :=
    Nat.add_right_comm ..
  rw [stop, Token.start_relocate]
  omega

namespace IsOperand

variable {left operand right : String}

theorem isOfTerm_behind (h : IsOperand left operand right) :
    ∀ t ∈ behind left operand, t.IsOfTerm :=
  List.forall_mem_map.2 fun t ht =>
    ⟨Bool.not_eq_true' _ ▸ (List.mem_filter.1 ht).2, h.unsigned t ht⟩

/-- Words in front of the operand end before an operator. -/
theorem stop_lt (h : IsOperand left operand right) {t : Token} (ht : t ∈ significantTokens left)
    (plain : t.IsPlain) : t.stop < byteLength left.toList := by
  have mem := (List.mem_filter.1 ht).1
  refine (stop_le_of_mem_tokenize mem).lt_of_ne fun last => ?_
  have getLast := getLast?_tokenize mem last
  have nonblank : ∀ u ∈ (tokenize left).getLast?, u.isBlank = false := by
    rintro u hu
    obtain rfl := Option.some.inj (getLast.symm.trans hu)
    exact plain.1
  have operator := h.before t ((getLast?_filter_of_getLast? nonblank).trans getLast)
  rw [plain.2.1] at operator
  cases operator

/-- Words behind the operand start after an operator. -/
theorem lt_start (h : IsOperand left operand right) {t : Token}
    (ht : t ∈ behind (left ++ operand) right) (plain : t.IsPlain) :
    byteLength left.toList + byteLength operand.toList < t.start := by
  obtain ⟨le, -⟩ := bounds_of_mem_behind ht
  obtain ⟨u, hu, rfl⟩ := List.mem_map.1 ht
  rw [String.toList_append, byteLength_append] at le ⊢
  refine le.lt_of_ne fun first => ?_
  have head := head?_tokenize (List.mem_filter.1 hu).1 (Nat.right_eq_add.1 first)
  have nonblank : ∀ v ∈ (tokenize right).head?, v.isBlank = false := by
    rintro v hv
    obtain rfl := Option.some.inj (head.symm.trans hv)
    exact plain.1
  have operator := h.after u ((head?_filter_of_head? nonblank).trans head)
  have word : u.lexeme.isOperator = false := plain.2.1
  rw [word] at operator
  cases operator

/-- The places before, in and behind the operand are moved by none, one and two bytes. -/
theorem relocate_cases (left operand : String) {i j : Nat} (lt : i < j) :
    (j ≤ byteLength left.toList → (parenthesizing left operand).start i = i ∧
      (parenthesizing left operand).stop j = j) ∧
    (byteLength left.toList ≤ i → j ≤ byteLength left.toList + byteLength operand.toList →
      (parenthesizing left operand).start i = i + 1 ∧
        (parenthesizing left operand).stop j = j + 1) ∧
    (byteLength left.toList + byteLength operand.toList ≤ i →
      (parenthesizing left operand).start i = i + 2 ∧
        (parenthesizing left operand).stop j = j + 2) := by
  refine ⟨fun before => ?_, fun first last => ?_, fun behind => ?_⟩
  · exact ⟨if_pos (by omega), if_pos (by omega)⟩
  · exact ⟨(if_neg (by omega)).trans (if_pos (by omega)),
      (if_neg (by omega)).trans (if_pos (by omega))⟩
  · exact ⟨(if_neg (by omega)).trans (if_neg (by omega)),
      (if_neg (by omega)).trans (if_neg (by omega))⟩

/-- The tokens before the operand stay, those of the operand are moved by one byte, and those behind
it by two. -/
theorem map_relocate (left operand right : String) :
    (significantTokens left).map (Token.relocate (parenthesizing left operand).start) =
      significantTokens left ∧
    (behind left operand).map (Token.relocate (parenthesizing left operand).start) =
      (behind left operand).map (Token.relocate (· + 1)) ∧
    (behind (left ++ operand) right).map (Token.relocate (parenthesizing left operand).start) =
      (behind (left ++ operand) right).map (Token.relocate (· + 2)) := by
  refine ⟨(List.map_congr_left fun t ht => ?_).trans (List.map_id _),
    List.map_congr_left fun t ht => congrArg (Token.mk t.lexeme) ?_,
    List.map_congr_left fun t ht => congrArg (Token.mk t.lexeme) ?_⟩
  · obtain ⟨lt, le⟩ := bounds_of_mem_significantTokens ht
    exact congrArg (Token.mk t.lexeme) ((relocate_cases left operand lt).1 le).1
  · obtain ⟨first, lt, le⟩ := bounds_of_mem_behind ht
    exact ((relocate_cases left operand lt).2.1 first le).1
  · obtain ⟨first, lt, -⟩ := bounds_of_mem_behind ht
    rw [String.toList_append, byteLength_append] at first
    exact ((relocate_cases left operand lt).2.2 first).1

/-- Each token is moved by none, one or two bytes, because it is before, in or behind the operand.
Words outside do not touch the operand. -/
theorem mem_cases (h : IsOperand left operand right) {t : Token}
    (ht : t ∈ significantTokens (left ++ operand ++ right)) :
    t.start < t.stop ∧ ∃ n, (parenthesizing left operand).start t.start = t.start + n ∧
      (parenthesizing left operand).stop t.stop = t.stop + n ∧
      (n = 0 ∧ t.stop ≤ byteLength left.toList ∧ (t.IsPlain → t.stop < byteLength left.toList) ∨
        n = 1 ∧ byteLength left.toList ≤ t.start ∧
          t.stop ≤ byteLength left.toList + byteLength operand.toList ∨
        n = 2 ∧ byteLength left.toList + byteLength operand.toList ≤ t.start ∧
          (t.IsPlain → byteLength left.toList + byteLength operand.toList < t.start)) := by
  rw [h.significantTokens_eq, List.append_assoc] at ht
  rcases List.mem_append.1 ht with ht | ht
  · obtain ⟨lt, le⟩ := bounds_of_mem_significantTokens ht
    obtain ⟨start, stop⟩ := (relocate_cases left operand lt).1 le
    exact ⟨lt, 0, start, stop, .inl ⟨rfl, le, h.stop_lt ht⟩⟩
  rcases List.mem_append.1 ht with ht | ht
  · obtain ⟨first, lt, le⟩ := bounds_of_mem_behind ht
    obtain ⟨start, stop⟩ := (relocate_cases left operand lt).2.1 first le
    exact ⟨lt, 1, start, stop, .inr (.inl ⟨rfl, first, le⟩)⟩
  · obtain ⟨first, lt, -⟩ := bounds_of_mem_behind ht
    rw [String.toList_append, byteLength_append] at first
    obtain ⟨start, stop⟩ := (relocate_cases left operand lt).2.2 first
    exact ⟨lt, 2, start, stop, .inr (.inr ⟨rfl, first, h.lt_start ht⟩)⟩

theorem carries (h : IsOperand left operand right) :
    (parenthesizing left operand).Carries (significantTokens (left ++ operand ++ right)) where
  stop t ht := by
    obtain ⟨-, n, start, stop, -⟩ := h.mem_cases ht
    show (parenthesizing left operand).start t.start + byteLength t.chars = _
    rw [start, stop]
    exact Nat.add_right_comm ..
  touching t ht u hu plain plain' := by
    obtain ⟨lt, n, -, stop, place⟩ := h.mem_cases ht
    obtain ⟨lt', m, start, -, place'⟩ := h.mem_cases hu
    simp only [plain, true_implies] at place
    simp only [plain', true_implies] at place'
    rw [stop, start]
    omega

end IsOperand

/-! ## The items of both texts -/

namespace Item

variable {μ : Relocation} {ts : List Token} {items : List (Item (Operand Empty))}

theorem runsFrom_foldr (plain : ∀ t ∈ ts, ¬t.IsParenthesis) : RunsFrom ts (ts.foldr push []) := by
  induction ts with
  | nil => exact nofun
  | cons t ts ih =>
    obtain ⟨first, others⟩ := List.forall_mem_cons.1 plain
    exact (ih others).push first

theorem keptBy_ofTokens (plain : ∀ t ∈ ts, ¬t.IsParenthesis) (carries : μ.Carries ts) :
    KeptBy μ (ofTokens ts) :=
  ((runsFrom_foldr plain).keptBy carries).runs? (Outline.runs?_foldr_push ts [])

/-- The items of moved tokens. -/
theorem foldr_push_relocate (carries : μ.Carries ts) :
    (ts.map (Token.relocate μ.start)).foldr push ([] : List (Item (Operand Value))) =
      (ofTokens ts).map (relocate μ (Operand.relocate μ Empty.elim)) := by
  induction ts with
  | nil => rfl
  | cons t ts ih =>
    rw [List.map_cons, List.foldr_cons, ih carries.tail]
    exact push_relocate Empty.elim (carries.span List.mem_cons_self) (ofTokens ts)

end Item

/-! ## Both texts -/

namespace Expression

open Outline

variable {options : Options} {text left operand right : String}

/-- A text without parentheses is read as a sum. -/
theorem outcome_parse_flat (flat : IsFlatText text) : (parse options text).outcome =
    Summands.read (Item.ofTokens (significantTokens text)) >>= fun p => .ok ⟨p.reduced⟩ := by
  obtain ⟨o, plain⟩ := exists_isPlain flat.not_isParenthesis
  rw [outcome_parse_significant, valueOfTokens, plain.closed.ofTokens_eq, plain.defect,
    plain.itemsOf_eq]
  show valueOf _ >>= _ = _
  rw [valueOf_plain]
  cases Summands.read (Item.ofTokens (significantTokens text)) <;> rfl

/-- The outline of a text with an operand in parentheses is a group between two plain outlines. -/
theorem exists_outline_parenthesized (flat : IsFlatText (left ++ operand ++ right))
    (h : IsOperand left operand right) :
    ∃ before inside after, IsPlain (significantTokens left) before ∧
      IsPlain ((behind left operand).map (Token.relocate (parenthesizing left operand).start))
        inside ∧
      IsPlain ((behind (left ++ operand) right).map
        (Token.relocate (parenthesizing left operand).start)) after ∧
      ofTokens (significantTokens (left ++ inParentheses operand ++ right)) =
        before.append (.group ⟨.opening, byteLength left.toList⟩ inside
          ⟨.closing, byteLength operand.toList + 1 + byteLength left.toList⟩ after) := by
  obtain ⟨flat_left, flat_right⟩ := isFlatText_append.1 flat
  obtain ⟨-, inside_eq, after_eq⟩ := IsOperand.map_relocate left operand right
  obtain ⟨before, hbefore⟩ := exists_isPlain (isFlatText_append.1 flat_left).1.not_isParenthesis
  have plain_inside : ∀ t ∈ (behind left operand).map (Token.relocate (· + 1)), ¬t.IsParenthesis :=
    List.forall_mem_map.2 (not_isParenthesis_behind flat)
  have plain_after : ∀ t ∈ (behind (left ++ operand) right).map (Token.relocate (· + 2)),
      ¬t.IsParenthesis :=
    List.forall_mem_map.2 (List.forall_mem_map.2 flat_right.not_isParenthesis)
  obtain ⟨inside, hinside⟩ := exists_isPlain plain_inside
  obtain ⟨after, hafter⟩ := exists_isPlain plain_after
  rw [inside_eq, after_eq]
  refine ⟨before, inside, after, hbefore, hinside, hafter, ?_⟩
  rw [h.significantTokens_parenthesized]
  have group := hinside.closed.group (byteLength left.toList)
    (byteLength operand.toList + 1 + byteLength left.toList)
  have closed := (hbefore.closed.append group).append hafter.closed
  rw [append_assoc] at closed
  exact closed.ofTokens_eq

/-- The region of the operand with its parentheses. -/
def parenthesizedPlace (left operand : String) : Span :=
  ⟨byteLength left.toList, byteLength left.toList + byteLength operand.toList + 2⟩

theorem through_parentheses (left operand : String) :
    (Token.span ⟨.opening, byteLength left.toList⟩).through
      (Token.span ⟨.closing, byteLength operand.toList + 1 + byteLength left.toList⟩) =
      parenthesizedPlace left operand := by
  refine congrArg (Span.mk _) ?_
  show byteLength operand.toList + 1 + byteLength left.toList + 1 = _
  omega

/-- A blank operand is not accepted in parentheses. -/
theorem parse_parenthesized_blank (flat : IsFlatText (left ++ operand ++ right))
    (h : IsOperand left operand right) (blank : IsBlankText operand) :
    (parse options (left ++ inParentheses operand ++ right)).outcome =
      .error (.emptyParenthesis (parenthesizedPlace left operand)) := by
  obtain ⟨before, inside, after, hbefore, hinside, -, eq⟩ := exists_outline_parenthesized flat h
  have nothing : inside = .nil := by
    have tokens := hinside.tokens
    rw [behind_eq_nil_iff.2 blank] at tokens
    cases inside with
    | nil => rfl
    | token | group => cases tokens
  rw [outcome_parse_significant, eq, defect?_append, hbefore.defect, Option.none_or, nothing,
    defect?, isBlank, if_pos rfl, through_parentheses]

/-- The operand with its parentheses is resolved to the term that it is read as, and an error in it
is moved. -/
theorem valueOf_inside (flat : IsFlatText (left ++ operand ++ right))
    (h : IsOperand left operand right) (nonblank : ¬IsBlankText operand) :
    valueOf (((behind left operand).map
        (Token.relocate (parenthesizing left operand).start)).foldr Item.push []) =
      (parenthesizing left operand).outcome Polynomial.ofTerm
        (Term.ofTokens (behind left operand)) := by
  have ofTerm := h.isOfTerm_behind
  have plain : ∀ t ∈ behind left operand,
      t ∈ significantTokens (left ++ operand ++ right) ∧ t.IsPlain := by
    intro t ht
    refine ⟨?_, (ofTerm t ht).1, (ofTerm t ht).2, not_isParenthesis_behind flat t ht⟩
    rw [h.significantTokens_eq]
    exact List.mem_append_left _ (List.mem_append_right _ ht)
  have read := Term.ofTokens_relocate (h.carries.keeps plain)
  obtain ⟨u, us, eq⟩ := List.exists_cons_of_ne_nil (mt behind_eq_nil_iff.1 nonblank)
  rw [eq] at ofTerm read ⊢
  rw [valueOf_plain, List.map_cons, Item.ofTokens_ofTerm]
  · rw [Summands.read_run]
    have tokens : Run.tokens ⟨u.relocate (parenthesizing left operand).start,
        us.map (Token.relocate (parenthesizing left operand).start)⟩ =
        (u :: us).map (Token.relocate (parenthesizing left operand).start) := rfl
    rw [tokens, read]
    cases Term.ofTokens (u :: us) <;> rfl
  · rw [← List.map_cons]
    exact List.forall_mem_map.2 ofTerm

/-- The items of a text in which the operand is in parentheses and has been resolved to a term. -/
def wrappedItems (left operand right : String) (t : Term) : List (Item (Operand Value)) :=
  (significantTokens left).foldr Item.push
    (.operand (.value ⟨.ofTerm t, parenthesizedPlace left operand⟩) ::
      ((behind (left ++ operand) right).map
        (Token.relocate (parenthesizing left operand).start)).foldr Item.push [])

/-- With parentheses, the operand is read first, and then what is around it is worked out. -/
theorem outcome_parse_parenthesized (flat : IsFlatText (left ++ operand ++ right))
    (h : IsOperand left operand right) (nonblank : ¬IsBlankText operand) :
    (parse .default (left ++ inParentheses operand ++ right)).outcome =
      (parenthesizing left operand).outcome id (Term.ofTokens (behind left operand)) >>= fun t =>
        valueOf (wrappedItems left operand right t) >>= fun p => .ok ⟨p⟩ := by
  obtain ⟨before, inside, after, hbefore, hinside, hafter, eq⟩ :=
    exists_outline_parenthesized flat h
  have something : inside.isBlank = false := by
    rw [← Bool.not_eq_true]
    intro blank
    obtain ⟨u, mem⟩ := List.exists_mem_of_ne_nil _ (mt behind_eq_nil_iff.1 nonblank)
    have blank : u.isBlank = true :=
      isBlank_of_mem_tokens blank (u.relocate (parenthesizing left operand).start)
        (hinside.tokens.symm ▸ List.mem_map_of_mem mem)
    exact Bool.false_ne_true ((h.isOfTerm_behind u mem).1.symm.trans blank)
  have deep : ¬Options.default.maxDepth ≤ 0 := by decide
  have defect : (ofTokens (significantTokens (left ++ inParentheses operand ++ right))).defect?
      Options.default.maxDepth 0 = none := by
    rw [eq, defect?_append, hbefore.defect, Option.none_or, defect?, something,
      if_neg Bool.false_ne_true, if_neg deep, hinside.defect, hafter.defect]
    rfl
  have value : valueOfTokens (significantTokens (left ++ inParentheses operand ++ right)) =
      (parenthesizing left operand).outcome id (Term.ofTokens (behind left operand)) >>= fun t =>
        valueOf (wrappedItems left operand right t) := by
    have inside_value : Except.ok (((behind left operand).map
        (Token.relocate (parenthesizing left operand).start)).foldr Item.push []) >>= valueOf =
        (parenthesizing left operand).outcome Polynomial.ofTerm
          (Term.ofTokens (behind left operand)) := valueOf_inside flat h nonblank
    rw [valueOfTokens, eq, hbefore.items, itemsOf_group, hinside.itemsOf_eq, inside_value,
      hafter.itemsOf_eq, through_parentheses]
    cases Term.ofTokens (behind left operand) <;> rfl
  rw [outcome_parse_significant, defect, value, bind_assoc]

/-- The operand is one of the runs. -/
theorem exists_run (flat : IsFlatText (left ++ operand ++ right))
    (h : IsOperand left operand right) (nonblank : ¬IsBlankText operand) :
    ∃ r : Run, r.tokens = behind left operand ∧
      Item.ofTokens (significantTokens (left ++ operand ++ right)) =
        Item.ofTokens (significantTokens left) ++
          .operand (.run r) :: Item.ofTokens (behind (left ++ operand) right) := by
  obtain ⟨u, us, eq⟩ := List.exists_cons_of_ne_nil (mt behind_eq_nil_iff.1 nonblank)
  have ofTerm := h.isOfTerm_behind
  have free : ∀ item ∈ (Item.ofTokens (behind (left ++ operand) right)).head?,
      item.isRun = false := Item.isRun_head?_foldr_push (h.standsBetween flat).after
  refine ⟨⟨u, us⟩, eq.symm, ?_⟩
  rw [eq] at ofTerm
  rw [h.significantTokens_eq, eq, List.append_assoc, Item.ofTokens, List.foldr_append,
    List.foldr_append]
  show (significantTokens left).foldr Item.push ((u :: us).foldr Item.push
    (Item.ofTokens (behind (left ++ operand) right))) = _
  rw [Item.foldr_push_ofTerm ofTerm free]
  exact Item.foldr_push_of_last h.before _

/-- As there is a resolved operand, what is around it is worked out in passes. -/
theorem valueOf_wrappedItems (t : Term) : valueOf (wrappedItems left operand right t) =
    Item.values (wrappedItems left operand right t) >>= Operations.workOut := by
  have runs : Item.runs? (wrappedItems left operand right t) = none := by
    rw [wrappedItems, runs?_foldr_push, Item.runs?_value_cons]
    rfl
  rw [valueOf, runs]
  rfl

end Expression

end Expansion
