import Mathlib
import Expansion.Proofs.Groups

/-!
# Blanks between tokens

**Theorem (`parse_spaced`).** Blanks may be put between two tokens of a text, unless both are parts
of words. The text is then parsed as the same polynomial as before, and an error is the same with
its regions moved: starts from the blanks on, and ends behind where they are put.

What a text is parsed as depends on its significant tokens only. New blanks move those behind them
and leave the others where they are. So the tokens of a word still touch; and where the blanks keep
two tokens apart that touched, at least one of them is not part of a word.
-/

namespace Expansion

/-- At `p` there are `n` more bytes. Starts from `p` on and ends behind `p` are moved. -/
def Relocation.insertion (p n : Nat) : Relocation where
  start i := if p ≤ i then i + n else i
  stop i := if p < i then i + n else i

/-- The two texts meet where the tokens `before` end and the tokens `behind` start. -/
structure Seam (left right : String) (before behind : List Token) : Prop where
  /-- All the tokens of the whole are before or behind. -/
  tokens : tokenize (left ++ right) = before ++ behind
  /-- The tokens before cover the first text. -/
  chars : Token.charsOf before = left.toList

/-- Blanks may be put between the two texts. They meet between two tokens, and it is at the start or
the end of the whole, or next to a blank, an operator or a parenthesis. -/
def MayBeSpaced (left right : String) : Prop :=
  ∃ before behind, Seam left right before behind ∧
    (before = [] ∨ behind = [] ∨ (∃ t ∈ before.getLast?, ¬t.IsPlain) ∨
      ∃ u ∈ behind.head?, ¬u.IsPlain)

/-! ## Tokens at the ends of a text -/

theorem length_pos_of_mem_lexemes {cs : List Char} {l : Lexeme} (h : l ∈ lexemes cs) :
    0 < byteLength l.chars :=
  byteLength_pos (Lexeme.chars_ne_nil_of_standalone (standalone_lexemes cs l h))

theorem start_lt_stop_of_mem_tokenize {text : String} {t : Token} (h : t ∈ tokenize text) :
    t.start < t.stop :=
  Nat.lt_add_of_pos_right (length_pos_of_mem_lexemes (lexeme_mem_of_mem_tokenize h))

/-- What starts where a text starts is its first token. -/
theorem head?_tokenize {text : String} {t : Token} (h : t ∈ tokenize text) (first : t.start = 0) :
    (tokenize text).head? = some t := by
  rw [tokenize] at h ⊢
  cases eq : lexemes text.toList with
  | nil =>
    rw [eq] at h
    cases h
  | cons l ls =>
    have length : 0 < byteLength l.chars := length_pos_of_mem_lexemes (by rw [eq]; simp)
    rw [eq, Token.place] at h
    rcases List.mem_cons.1 h with rfl | h
    · rfl
    · have behind := (bounds_of_mem_place h).1
      omega

/-- What ends where a text ends is its last token. -/
theorem getLast?_tokenize {text : String} {t : Token} (h : t ∈ tokenize text)
    (last : t.stop = byteLength text.toList) : (tokenize text).getLast? = some t := by
  have covers := flatMap_chars_lexemes text.toList
  rw [tokenize] at h ⊢
  rcases List.eq_nil_or_concat' (lexemes text.toList) with eq | ⟨ls, l, eq⟩
  · rw [eq] at h
    cases h
  · have length : 0 < byteLength l.chars := length_pos_of_mem_lexemes (by rw [eq]; simp)
    rw [eq, List.flatMap_append, List.flatMap_singleton] at covers
    rw [← covers, byteLength_append] at last
    rw [eq, Token.place_append] at h ⊢
    rcases List.mem_append.1 h with h | h
    · have before := (bounds_of_mem_place h).2
      omega
    · rw [List.mem_singleton.1 h]
      exact List.getLast?_concat

/-! ## Texts that meet between tokens -/

namespace Seam

variable {left right : String} {before behind : List Token} {t : Token}

theorem lexemes_eq (h : Seam left right before behind) :
    lexemes (left ++ right).toList = lexemes left.toList ++ lexemes right.toList := by
  have chars : Token.charsOf behind = right.toList := by
    have whole := charsOf_tokenize (left ++ right)
    rw [h.tokens, Token.charsOf, List.flatMap_append, String.toList_append] at whole
    exact List.append_cancel_left (h.chars ▸ whole)
  have lexed := congrArg (List.map Token.lexeme) h.tokens
  rw [tokenize, Token.lexeme_place, List.map_append] at lexed
  rw [lexed, ← h.chars, ← chars, lexemes_charsOf [] before behind h.tokens,
    lexemes_charsOf before behind [] (by rw [h.tokens, List.append_nil])]

/-- The tokens before and behind are those of the two texts, where the second is moved. -/
theorem sides_eq (h : Seam left right before behind) :
    before = tokenize left ∧
      behind = (tokenize right).map (Token.relocate (· + byteLength left.toList)) := by
  have tokens : tokenize (left ++ right) = tokenize left ++
      (tokenize right).map (Token.relocate (· + byteLength left.toList)) := by
    rw [tokenize, h.lexemes_eq, place_lexemes_append, place_lexemes _ right, Nat.zero_add]
    rfl
  have length : before.length = (tokenize left).length := by
    rw [length_tokenize, ← h.chars, lexemes_charsOf [] before behind h.tokens, List.length_map]
  exact List.append_inj (h.tokens.symm.trans tokens) length

theorem mem_sides (h : Seam left right before behind) (ht : t ∈ tokenize (left ++ right)) :
    t ∈ before ∧ t.stop ≤ byteLength left.toList ∨
      t ∈ behind ∧ byteLength left.toList ≤ t.start := by
  obtain ⟨rfl, rfl⟩ := h.sides_eq
  rw [h.tokens] at ht
  rcases List.mem_append.1 ht with ht | ht
  · exact .inl ⟨ht, stop_le_of_mem_tokenize ht⟩
  · refine .inr ⟨ht, ?_⟩
    obtain ⟨u, -, rfl⟩ := List.mem_map.1 ht
    exact Nat.le_add_left _ _

/-- What ends at the seam is the last token before it. -/
theorem getLast?_before (h : Seam left right before behind) (ht : t ∈ tokenize (left ++ right))
    (last : t.stop = byteLength left.toList) : before.getLast? = some t := by
  have length := start_lt_stop_of_mem_tokenize ht
  rcases h.mem_sides ht with ⟨mem, -⟩ | ⟨-, le⟩
  · obtain ⟨rfl, -⟩ := h.sides_eq
    exact getLast?_tokenize mem last
  · omega

/-- What starts at the seam is the first token behind it. -/
theorem head?_behind (h : Seam left right before behind) (ht : t ∈ tokenize (left ++ right))
    (first : t.start = byteLength left.toList) : behind.head? = some t := by
  have length := start_lt_stop_of_mem_tokenize ht
  rcases h.mem_sides ht with ⟨-, le⟩ | ⟨mem, -⟩
  · omega
  · obtain ⟨-, rfl⟩ := h.sides_eq
    obtain ⟨u, hu, rfl⟩ := List.mem_map.1 mem
    rw [List.head?_map, head?_tokenize hu (Nat.add_eq_right.1 first)]
    rfl

/-- No number goes across the seam. -/
theorem noDigits (h : Seam left right before behind) (ds : List Char)
    (last : (lexemes left.toList).getLast? = some (.digits ds)) :
    NoDigits (lexemes right.toList) := by
  have chain := isChain_lexemes (left ++ right).toList
  rw [h.lexemes_eq, List.isChain_append] at chain
  intro es ls eq
  have apart := chain.2.2 (.digits ds) last (.digits es) (by rw [eq]; rfl)
  cases apart

/-- The seam is between significant tokens as well. -/
theorem significantTokens_eq (h : Seam left right before behind) :
    significantTokens (left ++ right) = significantTokens left ++
      (significantTokens right).map (Token.relocate (· + byteLength left.toList)) :=
  significantTokens_append h.noDigits

end Seam

/-! ## Tokens around new blanks -/

/-- Blanks in front of a text without digits at its start leave it so. -/
theorem noDigits_blank_append {cs ds : List Char} (blank : ∀ c ∈ cs, Lexeme.isBlankChar c = true)
    (h : NoDigits (lexemes ds)) : NoDigits (lexemes (cs ++ ds)) := by
  cases cs with
  | nil => exact h
  | cons c cs =>
    have first : Lexeme.ofChar c = .blanks [c] := if_pos (blank c List.mem_cons_self)
    show NoDigits ((Lexeme.ofChar c).attach (lexemes (cs ++ ds)))
    rw [first]
    cases lexemes (cs ++ ds) with
    | nil => exact nofun
    | cons m ms => cases m <;> exact nofun

section

variable {left blanks right : String}

/-- Blanks at a place are something in place of nothing. -/
theorem insertion_eq_resize (p n : Nat) : Relocation.insertion p n = .resize p p (p + n) := by
  refine congrArg₂ Relocation.mk (funext fun i => ?_) (funext fun i => ?_)
  all_goals split <;> split <;> omega

/-- Tokens before and behind the place are carried, if no words touch it from both sides. -/
theorem carries_insertion {p n : Nat} {ts : List Token}
    (outside : ∀ t ∈ ts, t.start < t.stop ∧ (t.stop ≤ p ∨ p ≤ t.start))
    (apart : ∀ t ∈ ts, ∀ u ∈ ts, t.IsPlain → u.IsPlain → t.stop = p → u.start ≠ p) :
    (Relocation.insertion p n).Carries ts := by
  rw [insertion_eq_resize]
  refine carries_resize (Nat.le_refl p) (Nat.le_add_right p n) (fun t ht => ?_) apart
  obtain ⟨lt, before | behind⟩ := outside t ht
  · exact .inl ⟨by omega, before⟩
  · exact .inr ⟨behind, by omega⟩

/-- Blanks between two tokens move the significant tokens behind them, and no others. -/
theorem significantTokens_spaced (gap : MayBeSpaced left right) (blank : IsBlankText blanks) :
    significantTokens (left ++ blanks ++ right) = (significantTokens (left ++ right)).map
      (Token.relocate
        (Relocation.insertion (byteLength left.toList) (byteLength blanks.toList)).start) := by
  obtain ⟨before, behind, seam, -⟩ := gap
  have free (ds : List Char) (last : (lexemes left.toList).getLast? = some (.digits ds)) :
      NoDigits (lexemes (blanks ++ right).toList) := by
    rw [String.toList_append]
    exact noDigits_blank_append blank (seam.noDigits ds last)
  have spaced : significantTokens (blanks ++ right) =
      (significantTokens right).map (Token.relocate (· + byteLength blanks.toList)) := by
    rw [significantTokens_append, isBlankText_iff.1 blank, List.nil_append]
    intro ds last
    cases isBlank_lexemes blank _ (List.mem_of_getLast? last)
  have kept : ∀ t ∈ significantTokens left, t.relocate (Relocation.insertion
      (byteLength left.toList) (byteLength blanks.toList)).start = t := by
    intro t ht
    have mem := (List.mem_filter.1 ht).1
    have lt := start_lt_stop_of_mem_tokenize mem
    have le := stop_le_of_mem_tokenize mem
    exact congrArg (Token.mk t.lexeme) (if_neg (by omega))
  have moved : ∀ t ∈ significantTokens right,
      (t.relocate (· + byteLength blanks.toList)).relocate (· + byteLength left.toList) =
        (t.relocate (· + byteLength left.toList)).relocate (Relocation.insertion
          (byteLength left.toList) (byteLength blanks.toList)).start := by
    intro t ht
    refine congrArg (Token.mk t.lexeme) ?_
    exact (Nat.add_right_comm _ _ _).trans (if_pos (Nat.le_add_left _ _)).symm
  rw [String.append_assoc, significantTokens_append free, spaced,
    seam.significantTokens_eq, List.map_append, List.map_map, List.map_map]
  exact congrArg₂ (· ++ ·) ((List.map_congr_left kept).trans (List.map_id _)).symm
    (List.map_congr_left moved)

/-- Where blanks may be put, they do not keep parts of a word apart. -/
theorem carries_spaced (n : Nat) (gap : MayBeSpaced left right) :
    (Relocation.insertion (byteLength left.toList) n).Carries (tokenize (left ++ right)) := by
  obtain ⟨before, behind, seam, ends⟩ := gap
  refine carries_insertion (fun t ht => ⟨start_lt_stop_of_mem_tokenize ht, ?_⟩)
    fun t ht u hu plain plain' last first => ?_
  · exact (seam.mem_sides ht).imp And.right And.right
  · -- The two tokens are the last one before the blanks and the first one behind them.
    have getLast := seam.getLast?_before ht last
    have head := seam.head?_behind hu first
    rw [getLast, head] at ends
    rcases ends with rfl | rfl | ⟨t', same, other⟩ | ⟨u', same, other⟩
    · cases getLast
    · cases head
    · obtain rfl := Option.some.inj same
      exact other plain
    · obtain rfl := Option.some.inj same
      exact other plain'

end

/-! ## Parsing -/

namespace Expression

open Outline

variable {μ : Relocation} {options : Options} {left blanks right text text' : String}

/-- What a text is parsed as depends on its significant tokens only. -/
theorem outcome_parse_significant (options : Options) (text : String) :
    (parse options text).outcome =
      match (ofTokens (significantTokens text)).defect? options.maxDepth 0 with
      | some e => .error e
      | none => valueOfTokens (significantTokens text) >>= fun p => .ok ⟨p⟩ := by
  rw [defect?_significantTokens, valueOfTokens_significantTokens]
  exact outcome_parse options text

/-- A text whose significant tokens are only moved is parsed as the same polynomial, and an error is
moved. -/
theorem outcome_parse_relocate
    (tokens : significantTokens text' = (significantTokens text).map (Token.relocate μ.start))
    (carries : μ.Carries (significantTokens text)) :
    (parse options text').outcome = μ.outcome id (parse options text).outcome := by
  have tokens_eq : (ofTokens (significantTokens text)).tokens = significantTokens text :=
    tokens_ofTokens _
  rw [← tokens_eq] at carries
  rw [outcome_parse_significant, outcome_parse_significant, tokens, valueOfTokens,
    ofTokens_relocate, defect?_relocate _ _ carries]
  cases defect : (ofTokens (significantTokens text)).defect? options.maxDepth 0 with
  | some e => rfl
  | none =>
    show _ >>= _ = μ.outcome id (_ >>= _)
    rw [value_relocate (matched_ofTokens defect) carries]
    exact Relocation.outcome_bind fun p _ => rfl

/-- Blanks between two tokens, at the start or the end, or next to blanks, operators and
parentheses, change nothing but the regions of an error. -/
theorem parse_spaced (options : Options) (gap : MayBeSpaced left right)
    (blank : IsBlankText blanks) :
    (parse options (left ++ blanks ++ right)).outcome =
      (Relocation.insertion (byteLength left.toList) (byteLength blanks.toList)).outcome id
        (parse options (left ++ right)).outcome :=
  outcome_parse_relocate (significantTokens_spaced gap blank)
    ((carries_spaced _ gap).mono (List.filter_subset_self _))

/-- Between `(b)` and `3` an operator is missing. With blanks there, the first of the two values
still ends where it did, and the second is two bytes behind. -/
theorem parse_spaced_missing_operator :
    MayBeSpaced "a+(b)" "3" ∧ IsBlankText " \t" ∧
    (parse .default ("a+(b)" ++ "3")).outcome = .error (.missingOperator ⟨2, 5⟩ ⟨5, 6⟩) ∧
    (parse .default ("a+(b)" ++ " \t" ++ "3")).outcome =
      .error (.missingOperator ⟨2, 5⟩ ⟨7, 8⟩) := by
  have gap : MayBeSpaced "a+(b)" "3" :=
    ⟨tokenize "a+(b)", [⟨.digits ['3'], 5⟩], ⟨by decide, charsOf_tokenize _⟩,
      .inr (.inr (.inl ⟨⟨.closing, 4⟩, by decide, fun plain => plain.2.2 (.inr rfl)⟩))⟩
  have blank : IsBlankText " \t" := by decide
  have close : (parse .default ("a+(b)" ++ "3")).outcome =
      .error (.missingOperator ⟨2, 5⟩ ⟨5, 6⟩) := by cbv
  refine ⟨gap, blank, close, ?_⟩
  rw [parse_spaced .default gap blank, close]
  decide

end Expression

end Expansion
