import Mathlib
import Expansion.Expression
import Expansion.Proofs.Derivation

/-!
# Parsing respects arithmetic

**Theorem (`parse_accepts`).** Parsing a text fails if the text is not well-formed for the nesting
limit. Otherwise it succeeds or an exponent is too large, and it succeeds if the text is blank or
written for a formula that fits.

**Theorem (`denotes_iff_of_parse`).** A text that is parsed has exactly one value under every
assignment, and it is the value of the polynomial.

Both follow from what is known about outlines: those of tokens that are written for a formula have a
value that represents it, and those that have a value are written for a formula. What is left is the
way from the text to its outline, where the lexemes of a text are what they are called.
-/

namespace Expansion

/-! ## The lexemes of a text -/

/-- Blanks are blank, digits are digits, and letters are letters from `a` to `z`. -/
def Lexeme.Lexical : Lexeme → Prop
  | blanks cs => ∀ c ∈ cs, isBlankChar c = true
  | digits cs => ∀ c ∈ cs, c.isDigit = true
  | letter x => x.isLower = true
  | _ => True

namespace Lexeme

theorem lexical_ofChar (c : Char) : (ofChar c).Lexical := by
  unfold ofChar
  split
  · next blank => exact List.forall_mem_singleton.2 blank
  split
  · next digit => exact List.forall_mem_singleton.2 digit
  split
  · next lower => exact lower
  · repeat' split
    all_goals trivial

theorem lexical_join? {l m run : Lexeme} (h : l.join? m = some run) (hl : l.Lexical)
    (hm : m.Lexical) : run.Lexical := by
  cases l with
  | blanks cs =>
    cases m with
    | blanks ds =>
      obtain rfl := Option.some.inj h
      exact List.forall_mem_append.2 ⟨hl, hm⟩
    | _ => cases h
  | digits cs =>
    cases m with
    | digits ds =>
      obtain rfl := Option.some.inj h
      exact List.forall_mem_append.2 ⟨hl, hm⟩
    | _ => cases h
  | _ => cases m <;> cases h

/-- Joining a lexeme to its neighbour keeps what holds of both and of what they are joined to. -/
theorem forall_mem_attach {P : Lexeme → Prop} {l : Lexeme} {ls : List Lexeme}
    (join : ∀ m ∈ ls, ∀ run, l.join? m = some run → P run) (hl : P l) (hls : ∀ m ∈ ls, P m) :
    ∀ m ∈ l.attach ls, P m := by
  cases ls with
  | nil => exact List.forall_mem_singleton.2 hl
  | cons m ms =>
    rw [attach]
    split
    · next run eq =>
      exact List.forall_mem_cons.2
        ⟨join m List.mem_cons_self run eq, (List.forall_mem_cons.1 hls).2⟩
    · exact List.forall_mem_cons.2 ⟨hl, hls⟩

end Lexeme

theorem lexical_lexemes (cs : List Char) : ∀ l ∈ lexemes cs, l.Lexical := by
  induction cs with
  | nil => exact nofun
  | cons c cs ih =>
    have first := Lexeme.lexical_ofChar c
    have joined : ∀ m ∈ lexemes cs, ∀ l, Lexeme.join? (.ofChar c) m = some l → l.Lexical :=
      fun m hm _ eq => Lexeme.lexical_join? eq first (ih m hm)
    exact Lexeme.forall_mem_attach joined first ih

theorem lexeme_mem_of_mem_tokenize {text : String} {t : Token} (h : t ∈ tokenize text) :
    t.lexeme ∈ lexemes text.toList := by
  have := List.mem_map_of_mem (f := Token.lexeme) h
  rwa [tokenize, Token.lexeme_place] at this

theorem lettersLower_tokenize (text : String) : Term.LettersLower (tokenize text) := by
  intro t ht x letter
  have lexical := lexical_lexemes _ _ (lexeme_mem_of_mem_tokenize ht)
  rw [letter] at lexical
  exact lexical

theorem isBlank_lexemes {cs : List Char} (h : ∀ c ∈ cs, Lexeme.isBlankChar c = true) :
    ∀ l ∈ lexemes cs, l.isBlank = true := by
  induction cs with
  | nil => exact nofun
  | cons c cs ih =>
    obtain ⟨blank, h⟩ := List.forall_mem_cons.1 h
    have first : Lexeme.ofChar c = .blanks [c] := if_pos blank
    refine Lexeme.forall_mem_attach ?_ (first ▸ rfl) (ih h)
    intro m hm run eq
    rw [first] at eq
    cases m with
    | blanks ds => exact Option.some.inj eq ▸ rfl
    | _ => cases eq

/-- A text is blank if all its tokens are. -/
theorem isBlankText_iff {text : String} : IsBlankText text ↔ significantTokens text = [] := by
  have tokens_iff : significantTokens text = [] ↔
      ∀ l ∈ lexemes text.toList, l.isBlank = true := by
    rw [significantTokens, List.filter_eq_nil_iff, ← Token.lexeme_place 0 (lexemes text.toList),
      List.forall_mem_map]
    simp [tokenize, Token.isBlank]
  rw [tokens_iff, IsBlankText]
  constructor
  · exact isBlank_lexemes
  · intro blank c hc
    rw [← flatMap_chars_lexemes text.toList] at hc
    obtain ⟨l, hl, hc⟩ := List.mem_flatMap.1 hc
    have lexical := lexical_lexemes _ l hl
    have blank := blank l hl
    cases l with
    | blanks cs => exact lexical c hc
    | _ => cases blank

/-! ## From the text to the outline -/

namespace Outline

/-- The polynomial that tokens have as their value. -/
def valueOfTokens (ts : List Token) : Except Error Polynomial := (ofTokens ts).itemsOf >>= valueOf

theorem valueOfTokens_significantTokens (text : String) :
    valueOfTokens (significantTokens text) = valueOfTokens (tokenize text) := by
  rw [valueOfTokens, significantTokens, ← withoutBlanks_ofTokens, itemsOf_withoutBlanks,
    valueOfTokens]

theorem defect?_significantTokens (maxDepth depth : Nat) (text : String) :
    (ofTokens (significantTokens text)).defect? maxDepth depth =
      (ofTokens (tokenize text)).defect? maxDepth depth := by
  rw [significantTokens, ← withoutBlanks_ofTokens, defect?_withoutBlanks]

/-- What is written for a formula is read as the polynomial of the formula. -/
theorem valueOfTokens_computes {f : Formula} {text : String} (h : Writes f text) :
    Computes f.polynomial? (valueOfTokens (tokenize text)) := by
  obtain ⟨o, outlines⟩ := exists_outline h
  rw [← valueOfTokens_significantTokens, valueOfTokens, outlines.closed.ofTokens_eq]
  exact (outlines.items.mono (Formula.resolves_of_polynomial? h.lettered) fun _ => id).bind
    fun items phrase => valueOf_computes phrase

/-- What is written for a formula is read as a polynomial that represents it. -/
theorem valueOfTokens_yields {f : Formula} {text : String} (h : Writes f text) :
    Yields f.Fits (valueOfTokens (tokenize text)) (Polynomial.Represents f) :=
  Yields.mono (valueOfTokens_computes h) (Formula.exists_polynomial? h.lettered)
    fun _ => Formula.represents_of_polynomial? h.lettered

theorem valueOfTokens_blank {text : String} (h : IsBlankText text) :
    valueOfTokens (tokenize text) = .ok .zero := by
  rw [← valueOfTokens_significantTokens, isBlankText_iff.1 h]
  exact valueOf_nil

theorem defect?_of_wellFormed {depth : Nat} {text : String} (h : WellFormed depth text) :
    (ofTokens (tokenize text)).defect? depth 0 = none := by
  rw [← defect?_significantTokens]
  rcases h with blank | ⟨f, h, small⟩
  · rw [isBlankText_iff.1 blank]
    rfl
  · obtain ⟨o, outlines⟩ := exists_outline h
    rw [outlines.closed.ofTokens_eq]
    exact outlines.defect depth 0 (by omega)

theorem wellFormed_of_valueOfTokens {depth : Nat} {text : String} {p : Polynomial}
    (defect : (ofTokens (tokenize text)).defect? depth 0 = none)
    (h : valueOfTokens (tokenize text) = .ok p) : WellFormed depth text := by
  obtain ⟨items, eq, value⟩ := exists_ok_of_bind h
  have letters := lettersLower_tokenize text
  rw [← tokens_ofTokens (tokenize text)] at letters
  rcases exists_derives (paired_ofTokens _) letters defect eq value with empty | ⟨f, h, small⟩
  · rw [tokens_ofTokens] at empty
    exact .inl (isBlankText_iff.2 empty)
  · rw [tokens_ofTokens] at h
    exact .inr ⟨f, h, small⟩

end Outline

namespace Expression

open Outline

theorem outcome_parse (options : Options) (text : String) : (parse options text).outcome =
    match (ofTokens (tokenize text)).defect? options.maxDepth 0 with
    | some e => .error e
    | none => valueOfTokens (tokenize text) >>= fun p => .ok ⟨p⟩ := by
  rw [parse, Outline.parse]
  cases (ofTokens (tokenize text)).defect? options.maxDepth 0 with
  | some e => rfl
  | none =>
    simp only [resolve, Logged.outcome_bind, Logged.outcome_ofExcept, Logged.outcome_write,
      Logged.outcome_pure, valueOfTokens, bind_assoc]
    rfl

theorem parse_ok {options : Options} {text : String} {e : Expression}
    (h : (parse options text).outcome = .ok e) :
    (ofTokens (tokenize text)).defect? options.maxDepth 0 = none ∧
      valueOfTokens (tokenize text) = .ok e.polynomial := by
  rw [outcome_parse] at h
  split at h
  · cases h
  · next no_defect =>
    obtain ⟨p, value, eq⟩ := exists_ok_of_bind h
    cases eq
    exact ⟨no_defect, value⟩

/-- What is written for a formula is parsed as the polynomial of the formula. -/
theorem parse_computes {options : Options} {f : Formula} {text : String} (h : Writes f text)
    (small : f.depth ≤ options.maxDepth) :
    Computes (f.polynomial?.map .mk) (parse options text).outcome := by
  rw [outcome_parse, defect?_of_wellFormed (.inr ⟨f, h, small⟩)]
  exact (valueOfTokens_computes h).map Expression.mk

theorem parse_yields {options : Options} {f : Formula} {text : String} (h : Writes f text)
    (small : f.depth ≤ options.maxDepth) :
    Yields f.Fits (parse options text).outcome fun e => e.polynomial.Represents f := by
  rw [outcome_parse, defect?_of_wellFormed (.inr ⟨f, h, small⟩)]
  exact (valueOfTokens_yields h).bind fun p hp => .ok hp

theorem parse_blank (options : Options) {text : String} (h : IsBlankText text) :
    (parse options text).outcome = .ok ⟨.zero⟩ := by
  rw [outcome_parse, defect?_of_wellFormed (.inl h), valueOfTokens_blank h]
  rfl

theorem wellFormed_of_parse {options : Options} {text : String} {e : Expression}
    (h : (parse options text).outcome = .ok e) : WellFormed options.maxDepth text :=
  wellFormed_of_valueOfTokens (parse_ok h).1 (parse_ok h).2

/-! ## Acceptance and value -/

/-- Parsing accepts what is well-formed, unless an exponent gets too large. -/
theorem parse_accepts (options : Options) (text : String) :
    (¬WellFormed options.maxDepth text → ∃ e, (parse options text).outcome = .error e) ∧
    (WellFormed options.maxDepth text → (∃ e, (parse options text).outcome = .ok e) ∨
      ∃ place, (parse options text).outcome = .error (.exponentTooLarge place)) ∧
    ((IsBlankText text ∨ ∃ f, Writes f text ∧ f.depth ≤ options.maxDepth ∧ f.Fits) →
      ∃ e, (parse options text).outcome = .ok e) := by
  refine ⟨?_, ?_, ?_⟩
  · intro malformed
    cases outcome : (parse options text).outcome with
    | error e => exact ⟨e, rfl⟩
    | ok e => exact absurd (wellFormed_of_parse outcome) malformed
  · rintro (blank | ⟨f, h, small⟩)
    · exact .inl ⟨_, parse_blank options blank⟩
    · rcases parse_yields h small with ⟨e, eq, -⟩ | ⟨-, large⟩
      · exact .inl ⟨e, eq⟩
      · exact .inr large
  · rintro (blank | ⟨f, h, small, fits⟩)
    · exact ⟨_, parse_blank options blank⟩
    · obtain ⟨e, eq, -⟩ := (parse_yields h small).of_fits fits
      exact ⟨e, eq⟩

theorem value_eq_of_denotes {options : Options} {text : String} {e : Expression}
    (h : (parse options text).outcome = .ok e) {ρ : Assignment} {n : Int}
    (denotes : Denotes ρ text n) : n = e.polynomial.value ρ := by
  have value := (parse_ok h).2
  cases denotes with
  | blank blank =>
    rw [valueOfTokens_blank blank] at value
    rw [← Except.ok.inj value]
    rfl
  | formula writes =>
    have yields := valueOfTokens_yields writes
    rw [value] at yields
    exact (yields.of_ok.value ρ).symm

theorem denotes_of_parse {options : Options} {text : String} {e : Expression}
    (h : (parse options text).outcome = .ok e) (ρ : Assignment) :
    Denotes ρ text (e.polynomial.value ρ) := by
  have exists_value : ∃ n, Denotes ρ text n := by
    rcases wellFormed_of_parse h with blank | ⟨f, writes, -⟩
    · exact ⟨0, .blank blank⟩
    · exact ⟨_, .formula writes⟩
  obtain ⟨n, denotes⟩ := exists_value
  rwa [value_eq_of_denotes h denotes] at denotes

/-- A text that is parsed has the value of its polynomial, and no other. -/
theorem denotes_iff_of_parse {options : Options} {text : String} {e : Expression}
    (h : (parse options text).outcome = .ok e) (ρ : Assignment) (n : Int) :
    Denotes ρ text n ↔ n = e.polynomial.value ρ := by
  refine ⟨value_eq_of_denotes h, ?_⟩
  intro eq
  rw [eq]
  exact denotes_of_parse h ρ

/-- Signs, products and sums around a group. -/
theorem denotes_iff_of_parse_group :
    (parse .default "2*-(a + 1) - a2*3").outcome =
      .ok ⟨⟨[⟨-3, ⟨[('a', 2)]⟩⟩, ⟨-2, ⟨[('a', 1)]⟩⟩, ⟨-2, .one⟩]⟩⟩ ∧
    ∀ ρ n, Denotes ρ "2*-(a + 1) - a2*3" n ↔
      n = Polynomial.value ρ ⟨[⟨-3, ⟨[('a', 2)]⟩⟩, ⟨-2, ⟨[('a', 1)]⟩⟩, ⟨-2, .one⟩]⟩ := by
  have parsed : (parse .default "2*-(a + 1) - a2*3").outcome =
      .ok ⟨⟨[⟨-3, ⟨[('a', 2)]⟩⟩, ⟨-2, ⟨[('a', 1)]⟩⟩, ⟨-2, .one⟩]⟩⟩ := by cbv
  exact ⟨parsed, denotes_iff_of_parse parsed⟩

end Expression

end Expansion
