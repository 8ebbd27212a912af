import Expansion.Proofs.Locality
import Expansion.Proofs.Log

/-!
# Groups are resolved on their own

**Theorem (`parse_group`).** In a text that is parsed, a group is resolved to what its inside alone
is parsed as, with as many levels less of nesting allowed as the group is deep. The inside can be
replaced by any other text that is parsed as the same polynomial, unless that text is blank.

The outline of the inside is the part of the whole outline in the group, only moved; the tokens
before the group stay where they are, and those behind it are moved by the difference in length.
-/

namespace Expansion

/-- The region from `start` to `stop` is replaced by one from `start` to `stop'`. Starts from `stop`
on and ends behind `start` are moved. -/
def Relocation.resize (start stop stop' : Nat) : Relocation where
  start n := if n < stop then n else n - stop + stop'
  stop n := if n ≤ start then n else n - stop + stop'

/-- Tokens outside of the region are carried, if no words touch it from both sides. -/
theorem carries_resize {start stop stop' : Nat} {ts : List Token} (le : start ≤ stop)
    (le' : start ≤ stop')
    (outside : ∀ t ∈ ts,
      t.start < start ∧ t.stop ≤ start ∨ stop ≤ t.start ∧ start < t.stop)
    (apart : ∀ t ∈ ts, ∀ u ∈ ts, t.IsPlain → u.IsPlain → t.stop = start → u.start ≠ stop) :
    (Relocation.resize start stop stop').Carries ts where
  stop t ht := by
    have length : t.stop = t.start + byteLength t.chars := rfl
    have length' : (t.relocate (Relocation.resize start stop stop').start).stop =
        (Relocation.resize start stop stop').start t.start + byteLength t.chars := rfl
    rw [length']
    simp only [Relocation.resize]
    rcases outside t ht with ⟨first, last⟩ | ⟨first, last⟩
    · rw [if_pos (by omega), if_pos last, length]
    · rw [if_neg (by omega), if_neg (by omega), length]
      omega
  touching t ht u hu plain plain' := by
    have length : t.stop = t.start + byteLength t.chars := rfl
    have length' : u.stop = u.start + byteLength u.chars := rfl
    have apart := apart t ht u hu plain plain'
    simp only [Relocation.resize]
    rcases outside t ht with ⟨first, last⟩ | ⟨first, last⟩ <;>
      rcases outside u hu with ⟨first', last'⟩ | ⟨first', last'⟩
    all_goals split <;> split <;> omega

/-! ## Places of tokens -/

theorem bounds_of_mem_place {i : Nat} {ls : List Lexeme} {t : Token} (h : t ∈ Token.place i ls) :
    i ≤ t.start ∧ t.stop ≤ i + byteLength (ls.flatMap Lexeme.chars) := by
  induction ls generalizing i with
  | nil => cases h
  | cons l ls ih =>
    rw [List.flatMap_cons, byteLength_append]
    rcases List.mem_cons.1 h with rfl | h
    · exact ⟨Nat.le_refl i, by show i + byteLength l.chars ≤ _; omega⟩
    · obtain ⟨first, last⟩ := ih h
      exact ⟨by omega, by omega⟩

/-- A token of a text ends in the text. -/
theorem stop_le_of_mem_tokenize {text : String} {t : Token} (h : t ∈ tokenize text) :
    t.stop ≤ byteLength text.toList := by
  obtain ⟨-, last⟩ := bounds_of_mem_place h
  rwa [flatMap_chars_lexemes, Nat.zero_add] at last

namespace Outline

/-! ## Limits of nesting -/

/-- Without defects as a group, an outline has none alone where less nesting is allowed. -/
theorem defect?_eq_none_mono {o : Outline} {maxDepth maxDepth' depth depth' : Nat}
    (h : o.defect? maxDepth depth = none) (le : maxDepth + depth' ≤ maxDepth' + depth) :
    o.defect? maxDepth' depth' = none := by
  induction o generalizing depth depth' with
  | nil => rfl
  | token t rest ih =>
    have rest := ih (defect?_token h) le
    obtain ⟨l, i⟩ := t
    cases l with
    | opening | closing => cases h
    | _ => exact rest
  | group opening body closing rest ihBody ihRest =>
    obtain ⟨nonblank, small, inner, outer⟩ := defect?_group h
    exact defect?_group_eq_none nonblank (by omega) (ihBody inner (by omega)) (ihRest outer le)

theorem defect?_shift {o : Outline} {maxDepth depth : Nat} (n : Nat) :
    (o.relocate (.shift n)).defect? maxDepth depth = none ↔ o.defect? maxDepth depth = none := by
  rw [defect?_relocate maxDepth depth (carries_shift n _), Option.map_eq_none_iff]

theorem value_shift {o : Outline} (matched : o.Matched) (n : Nat) (p : Polynomial) :
    (o.relocate (.shift n)).itemsOf >>= valueOf = .ok p ↔ o.itemsOf >>= valueOf = .ok p := by
  rw [value_relocate matched (carries_shift n _), Relocation.outcome_eq_ok_iff]

theorem matched_ofTokens {ts : List Token} {maxDepth depth : Nat}
    (h : (ofTokens ts).defect? maxDepth depth = none) : (ofTokens ts).Matched :=
  (paired_ofTokens ts).matched h

instance : DecidablePred IsBlankText := fun text => List.decidableBAll _ text.toList

theorem isBlank_ofTokens_tokenize {text : String} (h : ¬IsBlankText text) :
    (ofTokens (tokenize text)).isBlank = false := by
  rw [← Bool.not_eq_true]
  intro blank
  have blanks := isBlank_of_mem_tokens blank
  rw [tokens_ofTokens] at blanks
  refine h (isBlankText_iff.2 (List.filter_eq_nil_iff.2 fun t ht => ?_))
  rw [blanks t ht]
  exact Bool.false_ne_true

/-- The outline of a text that starts at `start` in another text. -/
def outlineAt (start : Nat) (text : String) : Outline :=
  (ofTokens (tokenize text)).relocate (.shift start)

/-! ## Texts around a group -/

namespace Context

/-- The tokens of the context are those of the texts to the left and right of the parentheses, where
`inner` is between these. -/
structure Surrounds (C : Context) (left inner right : String) : Prop where
  before : C.before = tokenize left
  opening : C.opening = ⟨.opening, byteLength left.toList⟩
  closing : C.closing = ⟨.closing, byteLength left.toList + 1 + byteLength inner.toList⟩
  behind : C.behind = (tokenize right).map (Token.relocate
    (· + (byteLength left.toList + 1 + byteLength inner.toList + 1)))

theorem exists_surrounds {C : Context} {b : Outline} {text : String} (matched : (C.fill b).Matched)
    (whole : ofTokens (tokenize text) = C.fill b) : ∃ left right,
      text = left ++ inParentheses b.text ++ right ∧ C.Surrounds left b.text right ∧
      b = outlineAt (byteLength left.toList + 1) b.text := by
  have tokens := tokens_ofTokens (tokenize text)
  rw [whole, tokens_fill] at tokens
  obtain ⟨opens, closes⟩ := parentheses_of_matched matched
  obtain ⟨left, inner, right, text_eq, inner_eq, before, opening, inside, closing, behind⟩ :=
    exists_texts_of_tokens opens closes tokens.symm
  obtain rfl : inner = b.text := inner_eq
  refine ⟨left, right, text_eq, ⟨before, opening, closing, behind⟩, ?_⟩
  have outline := (matched_fill.1 matched).2.ofTokens_tokens
  have moved : ofTokens ((tokenize b.text).map (Token.relocate
      (Relocation.shift (byteLength left.toList + 1)).start)) =
      outlineAt (byteLength left.toList + 1) b.text := ofTokens_relocate _
  rw [inside] at outline
  exact outline.symm.trans moved

/-- Where things go when `inner` is replaced by `new` in a group behind `left`. -/
def replacing (left inner new : String) : Relocation :=
  .resize (byteLength left.toList + 1) (byteLength left.toList + 1 + byteLength inner.toList)
    (byteLength left.toList + 1 + byteLength new.toList)

namespace Surrounds

variable {C : Context} {left inner right : String}

/-- The text around the group has the context as its outline. -/
theorem ofTokens_eq (h : C.Surrounds left inner right) {b : Outline}
    (inside : b = outlineAt (byteLength left.toList + 1) inner) (matched : (C.fill b).Matched) :
    ofTokens (tokenize (left ++ inParentheses inner ++ right)) = C.fill b := by
  have tokens : (C.fill b).tokens = groupTokens left inner right := by
    rw [tokens_fill, h.before, h.opening, h.closing, h.behind, inside, outlineAt, tokens_relocate,
      tokens_ofTokens]
    rfl
  rw [tokenize_group, ← tokens]
  exact matched.ofTokens_tokens

theorem carries (h : C.Surrounds left inner right) (new : String) :
    (replacing left inner new).Carries (C.fill .nil).tokens := by
  have start_le (u : Token) : u.start ≤ u.stop := Nat.le_add_right _ _
  -- The tokens around the inside end before it or begin behind it.
  have strictly : ∀ t ∈ (C.fill .nil).tokens,
      t.start < byteLength left.toList + 1 ∧ t.stop ≤ byteLength left.toList + 1 ∧
        (t.IsPlain → t.stop < byteLength left.toList + 1) ∨
      byteLength left.toList + 1 + byteLength inner.toList ≤ t.start ∧
        byteLength left.toList + 1 < t.stop := by
    intro t ht
    rw [tokens_fill, h.before, h.opening, h.closing, h.behind] at ht
    rcases List.mem_append.1 ht with before | ht
    · have first := start_le t
      have last := stop_le_of_mem_tokenize before
      exact .inl ⟨by omega, by omega, fun _ => by omega⟩
    rcases List.mem_cons.1 ht with rfl | ht
    · exact .inl ⟨Nat.lt_succ_self _, Nat.le_refl _, fun plain => absurd (.inl rfl) plain.2.2⟩
    rcases List.mem_cons.1 ht with rfl | ht
    · refine .inr ⟨Nat.le_refl _, ?_⟩
      show _ < byteLength left.toList + 1 + byteLength inner.toList + 1
      omega
    · obtain ⟨u, -, rfl⟩ := List.mem_map.1 ht
      have first := start_le (u.relocate (· + (byteLength left.toList + 1 +
        byteLength inner.toList + 1)))
      rw [Token.start_relocate] at first ⊢
      exact .inr ⟨by omega, by omega⟩
  -- So that none is moved into another.
  refine carries_resize (Nat.le_add_right _ _) (Nat.le_add_right _ _) (fun t ht => ?_)
    fun t ht u _ plain _ last => ?_
  · exact (strictly t ht).imp_left fun before => ⟨before.1, before.2.1⟩
  · rcases strictly t ht with ⟨-, -, strict⟩ | ⟨-, behind⟩
    · exact absurd last (strict plain).ne
    · exact absurd last behind.ne'

/-- With something else inside of the parentheses, the tokens around them are the moved ones. -/
theorem resize (h : C.Surrounds left inner right) (new : String) :
    (C.relocate (replacing left inner new)).Surrounds left new right where
  before := by
    rw [before_relocate, h.before]
    refine (List.map_congr_left fun t ht => ?_).trans (List.map_id _)
    have last := stop_le_of_mem_tokenize ht
    have first : t.start ≤ t.stop := Nat.le_add_right _ _
    exact congrArg (Token.mk t.lexeme) (if_pos (by omega))
  opening := by
    rw [opening_relocate, h.opening]
    exact congrArg (Token.mk .opening)
      (if_pos (show byteLength left.toList < byteLength left.toList + 1 + _ by omega))
  closing := by
    rw [closing_relocate, h.closing]
    refine congrArg (Token.mk .closing) ((if_neg (Nat.lt_irrefl _)).trans ?_)
    rw [Nat.sub_self, Nat.zero_add]
  behind := by
    rw [behind_relocate, h.behind, List.map_map]
    refine List.map_congr_left fun t _ => congrArg (Token.mk t.lexeme) ?_
    show (if _ then _ else _) = _
    rw [if_neg (by show ¬t.start + _ < _; omega)]
    show t.start + _ - _ + _ = t.start + _
    omega

end Surrounds

end Context

end Outline

namespace Expression

open Outline Context

theorem parse_eq_ok {options : Options} {text : String} {e : Expression}
    (defect : (ofTokens (tokenize text)).defect? options.maxDepth 0 = none)
    (value : valueOfTokens (tokenize text) = .ok e.polynomial) :
    (parse options text).outcome = .ok e := by
  rw [outcome_parse, defect, value]
  rfl

/-- What is parsed alone has no defects and the same value inside of a group. -/
theorem outlineAt_of_parse {maxDepth level : Nat} {text : String} {p : Polynomial}
    (h : (parse ⟨maxDepth - (level + 1)⟩ text).outcome = .ok ⟨p⟩) (small : level < maxDepth)
    (start : Nat) : (outlineAt start text).Matched ∧
      (outlineAt start text).defect? maxDepth (0 + level + 1) = none ∧
      (outlineAt start text).itemsOf >>= valueOf = .ok p := by
  obtain ⟨defect, value⟩ := parse_ok h
  have matched := matched_ofTokens defect
  refine ⟨(matched_relocate _).2 matched, (defect?_shift _).2 ?_, (value_shift matched _ p).2 value⟩
  exact defect?_eq_none_mono defect (by show maxDepth - (level + 1) + _ ≤ _; omega)

/-- What has no defects and a value inside of a group is parsed alone. -/
theorem parse_of_outlineAt {maxDepth level start : Nat} {text : String} {p : Polynomial}
    (matched : (outlineAt start text).Matched)
    (defect : (outlineAt start text).defect? maxDepth (0 + level + 1) = none)
    (value : (outlineAt start text).itemsOf >>= valueOf = .ok p) :
    (parse ⟨maxDepth - (level + 1)⟩ text).outcome = .ok ⟨p⟩ := by
  have matched := (matched_relocate _).1 matched
  have alone := defect?_eq_none_mono ((defect?_shift _).1 defect)
    (show maxDepth + 0 ≤ maxDepth - (level + 1) + (0 + level + 1) by omega)
  exact parse_eq_ok alone ((value_shift matched _ p).1 value)

theorem isBlank_outlineAt {start : Nat} {text : String} (h : ¬IsBlankText text) :
    (outlineAt start text).isBlank = false :=
  (isBlank_relocate _).trans (isBlank_ofTokens_tokenize h)

/-- The inside of a group may be replaced by what has no defects and the same value there. -/
theorem parse_of_surrounds {C : Context} {b : Outline} {left inner right new : String} {d : Nat}
    {e : Expression} {p : Polynomial} (surrounds : C.Surrounds left inner right)
    (matched : (C.fill b).Matched) (defect : (C.fill b).defect? d 0 = none)
    (whole : (C.fill b).itemsOf >>= valueOf = .ok e.polynomial)
    (value : b.itemsOf >>= valueOf = .ok p) (nonblank : ¬IsBlankText new)
    (accepted : (parse ⟨d - (C.level + 1)⟩ new).outcome = .ok ⟨p⟩) :
    (parse ⟨d⟩ (left ++ inParentheses new ++ right)).outcome = .ok e := by
  have carries := surrounds.carries new
  obtain ⟨-, small, -⟩ := defect?_of_fill defect
  obtain ⟨new_matched, new_defect, new_value⟩ :=
    outlineAt_of_parse accepted (by omega) (byteLength left.toList + 1)
  have outline := (surrounds.resize new).ofTokens_eq rfl (matched_fill_relocate matched new_matched)
  refine parse_eq_ok ?_ ?_
  · rw [outline]
    exact defect?_fill carries defect (isBlank_outlineAt nonblank) new_defect
  · rw [valueOfTokens, outline]
    exact value_fill carries matched value new_value whole

/-- What is parsed is not written as a blank text. -/
theorem not_isBlankText_of_parse {options : Options} {text : String} {p : Polynomial}
    (h : (parse options text).outcome = .ok ⟨p⟩) : ¬IsBlankText p.text := by
  intro blank
  obtain ⟨canonical, lettered⟩ := canonical_of_parse h
  have zero := (parse_text options canonical lettered).symm.trans (parse_blank options blank)
  cases zero
  cases blank '0' (by decide)

/-- A group is resolved to what its inside alone is parsed as, and the inside can be replaced by any
other text that is parsed as the same polynomial. -/
theorem parse_group {d : Nat} {text : String} {e : Expression}
    (h : (parse ⟨d⟩ text).outcome = .ok e) {n : Node}
    (node : n ∈ (ofTokens (tokenize text)).nodes) (group : n.depth ≠ 0) :
    ∃ left right p, text = left ++ inParentheses n.body.text ++ right ∧
      n.span = ⟨byteLength left.toList + 1,
        byteLength left.toList + 1 + byteLength n.body.text.toList⟩ ∧
      n.depth ≤ d ∧
      (∀ q, .resolvedNode n.body q ∈ (parse ⟨d⟩ text).log ↔ q = p) ∧
      (parse ⟨d - n.depth⟩ n.body.text).outcome = .ok ⟨p⟩ ∧
      (∀ new, ¬IsBlankText new → (parse ⟨d - n.depth⟩ new).outcome = .ok ⟨p⟩ →
        (parse ⟨d⟩ (left ++ inParentheses new ++ right)).outcome = .ok e) ∧
      (parse ⟨d⟩ (left ++ inParentheses p.text ++ right)).outcome = .ok e := by
  have inside : n ∈ (ofTokens (tokenize text)).groupNodes 0 1 1 := by
    rcases List.mem_cons.1 node with rfl | inside
    · exact absurd rfl group
    · exact inside
  -- The group stands in a context, in the outline and in the text.
  obtain ⟨C, whole, depth_eq, span_eq, -⟩ := exists_context inside
  obtain ⟨defect, value⟩ := parse_ok h
  have matched := matched_ofTokens defect
  rw [valueOfTokens] at value
  rw [whole] at defect matched value
  obtain ⟨left, right, text_eq, surrounds, body⟩ := exists_surrounds matched whole
  obtain ⟨-, small, inner_defect⟩ : _ ∧ 0 + C.level < d ∧ _ := defect?_of_fill defect
  -- Since the whole has a value, its inside has one.
  obtain ⟨items, found, -⟩ := exists_ok_of_bind value
  obtain ⟨p, inner_value⟩ := exists_value_of_fill found
  have inner_matched := (matched_fill.1 matched).2
  -- That value is recorded in the log.
  have recorded : ∀ q, .resolvedNode n.body q ∈ (parse ⟨d⟩ text).log ↔ q = p := by
    intro q
    constructor
    · intro record
      exact Except.ok.inj ((value_of_mem_log_parse record).symm.trans inner_value)
    · rintro rfl
      exact mem_log_parse_of_fill h whole inner_value
  -- The inside is parsed alone.
  have alone : (parse ⟨d - (C.level + 1)⟩ n.body.text).outcome = .ok ⟨p⟩ := by
    rw [body] at inner_matched inner_defect inner_value
    exact parse_of_outlineAt inner_matched inner_defect inner_value
  -- The inside is replaced, also by its value as it is written.
  have replace : ∀ new, ¬IsBlankText new → (parse ⟨d - (C.level + 1)⟩ new).outcome = .ok ⟨p⟩ →
      (parse ⟨d⟩ (left ++ inParentheses new ++ right)).outcome = .ok e :=
    fun new => parse_of_surrounds surrounds matched defect value inner_value
  obtain ⟨canonical, lettered⟩ := canonical_of_parse alone
  have rendered := parse_text ⟨d - (C.level + 1)⟩ canonical lettered
  have level : n.depth = C.level + 1 := depth_eq.trans (Nat.add_comm 1 C.level)
  have span : n.span = ⟨byteLength left.toList + 1,
      byteLength left.toList + 1 + byteLength n.body.text.toList⟩ := by
    rw [span_eq, surrounds.opening, surrounds.closing]
    rfl
  rw [level]
  exact ⟨left, right, p, text_eq, span, by omega, recorded, alone, replace,
    replace _ (not_isBlankText_of_parse alone) rendered⟩

/-- A group inside of another one, next to a factor. -/
theorem parse_group_nested :
    (parse ⟨2⟩ "2*(a+(b - 1))").outcome =
      .ok ⟨⟨[⟨2, ⟨[('a', 1)]⟩⟩, ⟨2, ⟨[('b', 1)]⟩⟩, ⟨-2, .one⟩]⟩⟩ ∧
    ∃ n ∈ (ofTokens (tokenize "2*(a+(b - 1))")).nodes, n.depth = 2 ∧ n.body.text = "b - 1" ∧
      ∃ left right p, "2*(a+(b - 1))" = left ++ inParentheses "b - 1" ++ right ∧
        n.span = ⟨byteLength left.toList + 1, byteLength left.toList + 6⟩ ∧
        (∀ q, .resolvedNode n.body q ∈ (parse ⟨2⟩ "2*(a+(b - 1))").log ↔ q = p) ∧
        (parse ⟨0⟩ "b - 1").outcome = .ok ⟨p⟩ ∧
        (parse ⟨2⟩ (left ++ inParentheses p.text ++ right)).outcome =
          .ok ⟨⟨[⟨2, ⟨[('a', 1)]⟩⟩, ⟨2, ⟨[('b', 1)]⟩⟩, ⟨-2, .one⟩]⟩⟩ := by
  have parsed : (parse ⟨2⟩ "2*(a+(b - 1))").outcome =
      .ok ⟨⟨[⟨2, ⟨[('a', 1)]⟩⟩, ⟨2, ⟨[('b', 1)]⟩⟩, ⟨-2, .one⟩]⟩⟩ := by cbv
  obtain ⟨n, node, depth, inner⟩ :
      ∃ n ∈ (ofTokens (tokenize "2*(a+(b - 1))")).nodes,
        n.depth = 2 ∧ n.body.text = "b - 1" := by decide +kernel
  have nested : n.depth ≠ 0 := by
    rw [depth]
    exact Nat.succ_ne_zero 1
  obtain ⟨left, right, p, text, span, -, recorded, alone, -, rendered⟩ :=
    parse_group parsed node nested
  rw [inner] at text span alone
  rw [depth] at alone
  exact ⟨parsed, n, node, depth, inner, left, right, p, text, span, recorded, alone, rendered⟩

end Expression

end Expansion
