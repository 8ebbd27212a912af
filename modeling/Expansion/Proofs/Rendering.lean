import Expansion.Proofs.Parsing
import Expansion.Proofs.Tokens
import Expansion.Proofs.Uniqueness

/-!
# Rendering decides equality

**Theorem (`parse_text`).** The text of a canonical polynomial over the letters is parsed as that
polynomial.

**Theorem (`text_eq_iff_denotes_iff`).** Two texts that can be parsed have the same canonical text
exactly if they have the same value under every assignment.

The text of a polynomial is cut into the lexemes it was put together from, because a number in it is
always followed by a letter, an operator, or nothing. The lexemes are written for a sum of signed
monomials, one for each term, which has the value of the polynomial and fits. So the text is parsed,
and the result is a canonical polynomial with the same values; there is only one. This works for
any list of terms in which no variable term has the factor 0 (`parse_shown`).
-/

namespace Expansion

/-! ## Cutting into lexemes -/

theorem isBlankChar_eq_false {c : Char} (h : c.isAlphanum = true) :
    Lexeme.isBlankChar c = false := by
  rw [Bool.eq_false_iff, Ne, Lexeme.isBlankChar]
  simp only [Bool.or_eq_true, beq_iff_eq]
  rintro (((rfl | rfl) | rfl) | rfl) <;> exact absurd h (by decide)

theorem ofChar_letter {x : Char} (h : x.isLower = true) : Lexeme.ofChar x = .letter x := by
  have blank := isBlankChar_eq_false (c := x) (by simp [Char.isAlphanum, Char.isAlpha, h])
  have digit : x.isDigit = false := by
    rw [Bool.eq_false_iff, Ne, Char.isDigit_iff_toNat]
    have := (Monomial.isDigitName_of_isLower h).1
    have nine : '9'.toNat = 57 := rfl
    omega
  simp [Lexeme.ofChar, blank, digit, h]

theorem lexemes_letter {x : Char} (h : x.isLower = true) (cs : List Char) :
    lexemes (x :: cs) = .letter x :: lexemes cs := by
  show (Lexeme.ofChar x).attach (lexemes cs) = _
  rw [ofChar_letter h]
  cases lexemes cs <;> rfl

theorem lexemes_operator (op : Operator) (cs : List Char) :
    lexemes (op.char :: cs) = .operator op :: lexemes cs := by
  show (Lexeme.ofChar op.char).attach (lexemes cs) = _
  have first : Lexeme.ofChar op.char = .operator op := by cases op <;> decide
  rw [first]
  cases lexemes cs <;> rfl

theorem ofChar_digit {d : Char} (h : d.isDigit = true) : Lexeme.ofChar d = .digits [d] := by
  have blank := isBlankChar_eq_false (c := d) (by simp [Char.isAlphanum, h])
  simp [Lexeme.ofChar, blank, h]

theorem lexemes_digits {ds cs : List Char} (nonempty : ds ≠ []) (all : ∀ d ∈ ds, d.isDigit = true)
    (free : NoDigits (lexemes cs)) : lexemes (ds ++ cs) = .digits ds :: lexemes cs := by
  induction ds with
  | nil => exact absurd rfl nonempty
  | cons d ds ih =>
    obtain ⟨digit, all⟩ := List.forall_mem_cons.1 all
    show (Lexeme.ofChar d).attach (lexemes (ds ++ cs)) = _
    rw [ofChar_digit digit]
    by_cases last : ds = []
    · rw [last, List.nil_append]
      match first : lexemes cs with
      | [] => rfl
      | .digits ds :: ms => exact absurd first (free ds ms)
      | .blanks _ :: _ | .letter _ :: _ | .operator _ :: _ | .equals :: _ | .comma :: _
      | .opening :: _ | .closing :: _ | .symbol _ :: _ => rfl
    · rw [ih last all]
      rfl

theorem lexemes_number (n : Nat) {cs : List Char} (free : NoDigits (lexemes cs)) :
    lexemes (Numeral.digits n ++ cs) = .digits (Numeral.digits n) :: lexemes cs :=
  lexemes_digits Nat.toDigits_ne_nil
    (fun _ => Nat.isDigit_of_mem_toDigits (by decide) (by decide)) free

/-! ## The lexemes of a polynomial -/

namespace Monomial

/-- The lexemes that a power is written with. -/
def powerLexemes : Char × Nat → List Lexeme
  | (x, e) => if e = 1 then [.letter x] else [.letter x, .digits (Numeral.digits e)]

theorem lexemes_powers {ps : List (Char × Nat)} (lower : ∀ p ∈ ps, p.1.isLower = true)
    {cs : List Char} (free : NoDigits (lexemes cs)) :
    lexemes (ps.flatMap powerChars ++ cs) = ps.flatMap powerLexemes ++ lexemes cs ∧
      NoDigits (ps.flatMap powerLexemes ++ lexemes cs) := by
  induction ps with
  | nil => exact ⟨rfl, free⟩
  | cons p ps ih =>
    obtain ⟨x, e⟩ := p
    obtain ⟨letter, lower⟩ := List.forall_mem_cons.1 lower
    obtain ⟨eq, free⟩ := ih lower
    rw [List.flatMap_cons, List.flatMap_cons, powerChars, powerLexemes]
    split
    · refine ⟨?_, noDigits_letter _ _⟩
      rw [List.append_assoc, List.singleton_append, lexemes_letter letter, eq]
      rfl
    · refine ⟨?_, noDigits_letter _ _⟩
      rw [List.cons_append, List.cons_append, lexemes_letter letter, List.append_assoc,
        lexemes_number e (eq ▸ free), eq]
      rfl

end Monomial

namespace Term

/-- The text of a term without its sign. -/
def unsignedChars (t : Term) : List Char :=
  if t.isConstant then Numeral.digits t.factor.natAbs
  else (if t.factor.natAbs = 1 then [] else Numeral.digits t.factor.natAbs) ++ t.monomial.chars

/-- The lexemes of a term without its sign. -/
def unsignedLexemes (t : Term) : List Lexeme :=
  if t.isConstant then [.digits (Numeral.digits t.factor.natAbs)]
  else (if t.factor.natAbs = 1 then [] else [.digits (Numeral.digits t.factor.natAbs)]) ++
    t.monomial.powers.flatMap Monomial.powerLexemes

/-- The text of a term is its sign, if it is negative, and the text without the sign. A variable
term with factor 0 is the exception. -/
theorem chars_eq {t : Term} (h : t.isConstant = true ∨ t.factor ≠ 0) :
    t.chars = if t.factor < 0 then '-' :: t.unsignedChars else t.unsignedChars := by
  rw [chars, unsignedChars]
  by_cases constant : t.isConstant = true
  · rw [if_pos constant, if_pos constant, Numeral.chars]
  · have nonzero := h.resolve_left constant
    rw [if_neg constant, if_neg nonzero, if_neg constant, coefficientChars, Numeral.chars]
    by_cases one : t.factor = 1
    · simp [one]
    · by_cases minus : t.factor = -1
      · simp [minus]
      · have size : t.factor.natAbs ≠ 1 := by omega
        rw [if_neg one, if_neg minus, if_neg size]
        split <;> rfl

theorem lexemes_unsigned {t : Term} (h : t.monomial.Lettered) {cs : List Char}
    (free : NoDigits (lexemes cs)) :
    lexemes (t.unsignedChars ++ cs) = t.unsignedLexemes ++ lexemes cs := by
  rw [unsignedChars, unsignedLexemes]
  split
  · exact lexemes_number _ free
  · obtain ⟨eq, free⟩ := Monomial.lexemes_powers h.letters free
    rw [Monomial.chars, List.append_assoc, List.append_assoc]
    split
    · exact eq
    · rw [lexemes_number _ (eq ▸ free), eq]
      rfl

/-- A term that does not disappear from its text: a number, or not zero. -/
def Shows (t : Term) : Prop := t.monomial.Lettered ∧ (t.isConstant = true ∨ t.factor ≠ 0)

/-- The operator that a term is added with to those before it. -/
def sign (t : Term) : Operator := if t.factor < 0 then .sub else .add

/-- The lexemes of a term after another one. -/
def addendLexemes (t : Term) : List Lexeme := .operator t.sign :: t.unsignedLexemes

theorem addendChars_eq {t : Term} (h : t.Shows) :
    Polynomial.addendChars t = t.sign.char :: t.unsignedChars := by
  rw [Polynomial.addendChars, chars_eq h.2, sign]
  split <;> rfl

theorem lexemes_addends {ts : List Term} (h : ∀ t ∈ ts, t.Shows) :
    lexemes (ts.flatMap Polynomial.addendChars) = ts.flatMap addendLexemes ∧
      NoDigits (ts.flatMap addendLexemes) := by
  induction ts with
  | nil => exact ⟨rfl, noDigits_nil⟩
  | cons t ts ih =>
    obtain ⟨shows, h⟩ := List.forall_mem_cons.1 h
    obtain ⟨eq, free⟩ := ih h
    refine ⟨?_, noDigits_operator _ _⟩
    rw [List.flatMap_cons, List.flatMap_cons, addendChars_eq shows, List.cons_append,
      lexemes_operator, lexemes_unsigned shows.1 (eq ▸ free), eq]
    rfl

/-- The lexemes of the first term of a polynomial. -/
def firstLexemes (t : Term) : List Lexeme :=
  if t.factor < 0 then .operator .sub :: t.unsignedLexemes else t.unsignedLexemes

end Term

/-- A polynomial is cut into the lexemes of its terms. -/
theorem lexemes_chars {t : Term} {ts : List Term} (h : ∀ u ∈ t :: ts, u.Shows) :
    lexemes (Polynomial.chars ⟨t :: ts⟩) = t.firstLexemes ++ ts.flatMap Term.addendLexemes := by
  obtain ⟨shows, h⟩ := List.forall_mem_cons.1 h
  obtain ⟨eq, free⟩ := Term.lexemes_addends h
  have unsigned := Term.lexemes_unsigned shows.1 (eq ▸ free)
  show lexemes (t.chars ++ ts.flatMap Polynomial.addendChars) = _
  rw [Term.chars_eq shows.2, Term.firstLexemes, ← eq]
  split
  · rw [List.cons_append, List.cons_append, ← unsigned]
    exact lexemes_operator .sub _
  · exact unsigned

/-! ## The formula of a polynomial -/

theorem exists_place_append (i : Nat) (ls ms : List Lexeme) :
    ∃ j, Token.place i (ls ++ ms) = Token.place i ls ++ Token.place j ms :=
  ⟨_, Token.place_append i ls ms⟩

theorem touching_place (i : Nat) (ls : List Lexeme) : Touching (Token.place i ls) := by
  induction ls generalizing i with
  | nil => exact .nil
  | cons l ls ih =>
    refine List.isChain_cons.2 ⟨?_, ih _⟩
    intro t first
    cases ls with
    | nil => cases first
    | cons m ms =>
      obtain rfl := Option.some.inj first
      rfl

theorem writesPowers_number {x : Char} {e i j : Nat} {ps : List (Char × Nat)} {ts : List Token}
    (letter : x.isLower = true) (h : WritesPowers ps ts) : WritesPowers ((x, e) :: ps)
      (⟨.letter x, i⟩ :: ⟨.digits (Numeral.digits e), j⟩ :: ts) := by
  have raised : WritesPowers ((x, Numeral.value (Numeral.digits e)) :: ps) _ :=
    .raised (i := i) (j := j) letter h
  rwa [Numeral.value_digits] at raised

theorem writesMonomial_number {c i : Nat} {ps : List (Char × Nat)} {ts : List Token}
    (h : WritesPowers ps ts) (touching : Touching (⟨.digits (Numeral.digits c), i⟩ :: ts)) :
    WritesMonomial c ps (⟨.digits (Numeral.digits c), i⟩ :: ts) := by
  have scaled : WritesMonomial (Numeral.value (Numeral.digits c)) ps _ := .scaled h touching
  rwa [Numeral.value_digits] at scaled

theorem writesPowers_place {ps : List (Char × Nat)} (lower : ∀ p ∈ ps, p.1.isLower = true)
    (i : Nat) : WritesPowers ps (Token.place i (ps.flatMap Monomial.powerLexemes)) := by
  induction ps generalizing i with
  | nil => exact .nil
  | cons p ps ih =>
    obtain ⟨x, e⟩ := p
    obtain ⟨letter, others⟩ := List.forall_mem_cons.1 lower
    rw [List.flatMap_cons, Monomial.powerLexemes]
    split
    · next one =>
      rw [one]
      exact .bare letter (ih others _)
    · exact writesPowers_number letter (ih others _)

namespace Term

theorem place_powers_ne_nil {t : Term} (h : ¬t.isConstant = true) (i : Nat) :
    Token.place i (t.monomial.powers.flatMap Monomial.powerLexemes) ≠ [] := by
  rw [isConstant, Monomial.isOne] at h
  cases eq : t.monomial.powers with
  | nil => exact absurd (eq ▸ rfl) h
  | cons p ps =>
    rw [List.flatMap_cons, Monomial.powerLexemes]
    split <;> exact List.cons_ne_nil _ _

theorem writesMonomial_place {t : Term} (h : t.monomial.Lettered) (i : Nat) :
    WritesMonomial t.factor.natAbs t.monomial.powers (Token.place i t.unsignedLexemes) := by
  have touching := touching_place i t.unsignedLexemes
  have powers := writesPowers_place h.letters
  rw [unsignedLexemes] at touching ⊢
  by_cases constant : t.isConstant = true
  · rw [if_pos constant] at touching ⊢
    rw [Monomial.isOne_iff.1 constant]
    exact writesMonomial_number .nil touching
  · rw [if_neg constant] at touching ⊢
    by_cases one : t.factor.natAbs = 1
    · rw [if_pos one] at touching ⊢
      rw [one]
      exact .bare (powers i) (place_powers_ne_nil constant i) touching
    · rw [if_neg one] at touching ⊢
      exact writesMonomial_number (powers _) touching

/-- The formula that a term is written for. -/
def formula (t : Term) : Formula :=
  (Formula.monomial t.factor.natAbs t.monomial.powers).withSign (decide (t.factor < 0))

theorem value_formula (t : Term) (ρ : Assignment) : t.formula.value ρ = t.value ρ := by
  rw [formula, Formula.value_withSign, Formula.value, value, Monomial.value]
  split
  · next negative =>
    have size : (t.factor.natAbs : Int) = -t.factor := by
      have := of_decide_eq_true negative
      omega
    rw [size, neg_mul, neg_neg]
  · next positive =>
    have size : (t.factor.natAbs : Int) = t.factor := by
      have := of_decide_eq_false (Bool.eq_false_iff.2 positive)
      omega
    rw [size]

theorem fits_formula {t : Term} (h : t.monomial.Lettered) : t.formula.Fits := by
  have fits : ∀ x, t.monomial.exponent x ≤ maxExponent := h.toNormal.fits_iff.1 h.fits
  rw [formula, Formula.withSign]
  split <;> exact fits

theorem depth_formula (t : Term) : t.formula.depth = 0 := by
  rw [formula, Formula.withSign]
  split <;> rfl

theorem derives_formula {t : Term} (h : t.monomial.Lettered) (i : Nat) :
    Derives .sum t.formula (Token.place i t.firstLexemes) := by
  rw [formula, Formula.withSign, firstLexemes]
  by_cases negative : t.factor < 0
  · rw [if_pos (decide_eq_true negative), if_pos negative]
    exact .product (.factor (.minus (.monomial (writesMonomial_place h _))))
  · rw [if_neg (by simpa using negative), if_neg negative]
    exact .product (.factor (.monomial (writesMonomial_place h _)))

/-- A term after a formula adds its value to it. -/
theorem exists_derives_addend {t : Term} (h : t.monomial.Lettered) {f : Formula} {us : List Token}
    (derives : Derives .sum f us) (fits : f.Fits) (flat : f.depth = 0) (i j : Nat) :
    ∃ g, Derives .sum g (us ++ ⟨.operator t.sign, i⟩ :: Token.place j t.unsignedLexemes) ∧
      g.Fits ∧ g.depth = 0 ∧ ∀ ρ, g.value ρ = f.value ρ + t.value ρ := by
  have monomial := writesMonomial_place h j
  have unsigned_fits := fits_formula h
  have value := value_formula t
  rw [formula, Formula.withSign] at unsigned_fits value
  rw [sign]
  by_cases negative : t.factor < 0
  · rw [if_pos (decide_eq_true negative)] at unsigned_fits value
    rw [if_pos negative]
    refine ⟨_, .sub derives (.factor (.monomial monomial)), ⟨fits, unsigned_fits⟩, ?_, ?_⟩
    · rw [Formula.depth, flat]
      rfl
    · intro ρ
      rw [← value ρ]
      exact sub_eq_add_neg _ _
  · rw [if_neg (by simpa using negative)] at unsigned_fits value
    rw [if_neg negative]
    refine ⟨_, .add derives (.factor (.monomial monomial)), ⟨fits, unsigned_fits⟩, ?_, ?_⟩
    · rw [Formula.depth, flat]
      rfl
    · intro ρ
      rw [← value ρ]
      rfl

/-- Terms after a formula add their values to it. -/
theorem exists_derives_addends {ts : List Term} (h : ∀ t ∈ ts, t.monomial.Lettered) {f : Formula}
    {us : List Token} (derives : Derives .sum f us) (fits : f.Fits) (flat : f.depth = 0) (i : Nat) :
    ∃ g, Derives .sum g (us ++ Token.place i (ts.flatMap addendLexemes)) ∧ g.Fits ∧ g.depth = 0 ∧
      ∀ ρ, g.value ρ = f.value ρ + (ts.map (Term.value ρ)).sum := by
  induction ts generalizing f us i with
  | nil =>
    refine ⟨f, ?_, fits, flat, fun ρ => (add_zero _).symm⟩
    rwa [List.flatMap_nil, Token.place, List.append_nil]
  | cons t ts ih =>
    obtain ⟨lettered, h⟩ := List.forall_mem_cons.1 h
    obtain ⟨j, place⟩ := exists_place_append i (addendLexemes t) (ts.flatMap addendLexemes)
    obtain ⟨g, derives, fits, flat, value⟩ := exists_derives_addend lettered derives fits flat i
      (i + byteLength (Lexeme.operator t.sign).chars)
    obtain ⟨g', derives', fits', flat', value'⟩ := ih h derives fits flat j
    refine ⟨g', ?_, fits', flat', ?_⟩
    · rw [List.flatMap_cons, place]
      rwa [List.append_assoc] at derives'
    · intro ρ
      rw [value', value, List.map_cons, List.sum_cons, add_assoc]

end Term

theorem Derives.not_blank {c : Category} {f : Formula} {ts : List Token} (h : Derives c f ts) :
    ∀ t ∈ ts, t.isBlank = false := by
  induction h with
  | monomial h =>
    intro t ht
    obtain ⟨l, i⟩ := t
    rcases (Outline.isWord_of_writesMonomial h).2 _ ht with ⟨x, rfl⟩ | ⟨ds, rfl⟩ <;> rfl
  | group _ ih =>
    refine List.forall_mem_cons.2 ⟨rfl, List.forall_mem_append.2 ⟨ih, ?_⟩⟩
    exact List.forall_mem_singleton.2 rfl
  | plus _ ih | minus _ ih => exact List.forall_mem_cons.2 ⟨rfl, ih⟩
  | factor _ ih | product _ ih => exact ih
  | mul _ _ ih ih' | add _ _ ih ih' | sub _ _ ih ih' =>
    exact List.forall_mem_append.2 ⟨ih, List.forall_mem_cons.2 ⟨rfl, ih'⟩⟩

theorem Polynomial.Canonical.isConstant_or {p : Polynomial} (h : p.Canonical) {t : Term}
    (ht : t ∈ p.terms) : t.isConstant = true ∨ t.factor ≠ 0 := by
  by_cases zero : p.terms = [.zero]
  · rw [zero, List.mem_singleton] at ht
    exact .inl (ht ▸ rfl)
  · have nonzero := h.nonzero zero t ht
    rw [← Bool.not_eq_true, Term.isZero_iff] at nonzero
    exact .inr nonzero

/-- The text of terms that show in it is written for a formula with the value of their sum. -/
theorem exists_writes_text {t : Term} {ts : List Term} (shows : ∀ u ∈ t :: ts, u.Shows) :
    ∃ f, Writes f (Polynomial.text ⟨t :: ts⟩) ∧ f.Fits ∧ f.depth = 0 ∧
      ∀ ρ, f.value ρ = ((t :: ts).map (Term.value ρ)).sum := by
  obtain ⟨first, others⟩ := List.forall_mem_cons.1 fun u hu => (shows u hu).1
  obtain ⟨j, place⟩ := exists_place_append 0 t.firstLexemes (ts.flatMap Term.addendLexemes)
  obtain ⟨f, derives, fits, flat, value⟩ := Term.exists_derives_addends others
    (Term.derives_formula first 0) (Term.fits_formula first) (Term.depth_formula t) j
  refine ⟨f, ?_, fits, flat, ?_⟩
  · rw [Writes, significantTokens, tokenize, Polynomial.text, String.toList_ofList,
      lexemes_chars shows, place,
      List.filter_eq_self.2 fun u hu => by simp [derives.not_blank u hu]]
    exact derives
  · intro ρ
    rw [value, Term.value_formula, List.map_cons, List.sum_cons]

namespace Expression

/-- The text of terms that show in it is parsed as their sum. -/
theorem parse_shown (options : Options) {t : Term} {ts : List Term}
    (shows : ∀ u ∈ t :: ts, u.Shows) :
    (parse options (Polynomial.text ⟨t :: ts⟩)).outcome = .ok ⟨.reduce (t :: ts)⟩ := by
  obtain ⟨f, writes, fits, flat, value⟩ := exists_writes_text shows
  have small : f.depth ≤ options.maxDepth := flat ▸ Nat.zero_le _
  have lettered : ∀ u ∈ t :: ts, u.monomial.Lettered := fun u hu => (shows u hu).1
  have normal := Polynomial.forall_monomial_reduce Monomial.normal_one
    fun u hu => (lettered u hu).toNormal
  obtain ⟨e, eq, represents⟩ := (parse_yields writes small).of_fits fits
  have same : e.polynomial = .reduce (t :: ts) := by
    apply represents.canonical.eq_of_forall_value
      (Polynomial.canonical_reduce fun u hu => (lettered u hu).weighable)
      (fun u hu => (represents.lettered u hu).toNormal) normal
    intro ρ
    rw [Polynomial.value_reduce, ← value]
    exact represents.value ρ
  rw [eq, ← same]

/-- The text of a canonical polynomial is parsed as that polynomial. -/
theorem parse_text (options : Options) {p : Polynomial} (canonical : p.Canonical)
    (lettered : ∀ t ∈ p.terms, t.monomial.Lettered) :
    (parse options p.text).outcome = .ok ⟨p⟩ := by
  have reduced := canonical.reduced_eq fun t ht => (lettered t ht).weighable
  have shows : ∀ t ∈ p.terms, t.Shows := fun t ht => ⟨lettered t ht, canonical.isConstant_or ht⟩
  obtain ⟨ts⟩ := p
  obtain ⟨t, ts, rfl⟩ := List.exists_cons_of_ne_nil canonical.nonempty
  rw [parse_shown options shows]
  exact congrArg (fun p => Except.ok (Expression.mk p)) reduced

/-- What is parsed is canonical and over the letters. -/
theorem canonical_of_parse {options : Options} {text : String} {e : Expression}
    (h : (parse options text).outcome = .ok e) :
    e.polynomial.Canonical ∧ ∀ t ∈ e.polynomial.terms, t.monomial.Lettered := by
  rcases wellFormed_of_parse h with blank | ⟨f, writes, small⟩
  · rw [parse_blank options blank] at h
    cases h
    exact ⟨Polynomial.canonical_zero, List.forall_mem_singleton.2 Monomial.lettered_one⟩
  · have yields := parse_yields writes small
    rw [h] at yields
    exact ⟨yields.of_ok.canonical, yields.of_ok.lettered⟩

/-- Expressions with the same text are equal. -/
theorem eq_of_text {options options' : Options} {s t : String} {d e : Expression}
    (hs : (parse options s).outcome = .ok d) (ht : (parse options' t).outcome = .ok e)
    (h : d.text = e.text) : d = e := by
  have left := parse_text .default (canonical_of_parse hs).1 (canonical_of_parse hs).2
  have right := parse_text .default (canonical_of_parse ht).1 (canonical_of_parse ht).2
  rw [show d.polynomial.text = e.polynomial.text from h, right] at left
  exact (Except.ok.inj left).symm

/-- Expressions with the same values are equal. -/
theorem eq_of_forall_value {options options' : Options} {s t : String} {d e : Expression}
    (hs : (parse options s).outcome = .ok d) (ht : (parse options' t).outcome = .ok e)
    (h : ∀ ρ, d.polynomial.value ρ = e.polynomial.value ρ) : d = e := by
  obtain ⟨d_canonical, d_lettered⟩ := canonical_of_parse hs
  obtain ⟨e_canonical, e_lettered⟩ := canonical_of_parse ht
  have polynomials : d.polynomial = e.polynomial :=
    d_canonical.eq_of_forall_value e_canonical (fun u hu => (d_lettered u hu).toNormal)
      (fun u hu => (e_lettered u hu).toNormal) h
  exact congrArg Expression.mk polynomials

/-- Texts have the same canonical text exactly if they have the same values. -/
theorem text_eq_iff_denotes_iff {options options' : Options} {s t : String} {d e : Expression}
    (hs : (parse options s).outcome = .ok d) (ht : (parse options' t).outcome = .ok e) :
    d.text = e.text ↔ ∀ ρ n, Denotes ρ s n ↔ Denotes ρ t n := by
  constructor
  · intro same ρ n
    obtain rfl := eq_of_text hs ht same
    constructor
    · intro denotes
      rw [value_eq_of_denotes hs denotes]
      exact denotes_of_parse ht ρ
    · intro denotes
      rw [value_eq_of_denotes ht denotes]
      exact denotes_of_parse hs ρ
  · intro same
    have expressions := eq_of_forall_value hs ht fun ρ =>
      value_eq_of_denotes ht ((same ρ _).1 (denotes_of_parse hs ρ))
    rw [expressions]

/-- A product and what it multiplies out to are rendered as one text, and have the same values. -/
theorem text_eq_iff_denotes_iff_product :
    (parse .default "(a+1)*(a-1)").outcome = .ok ⟨⟨[⟨1, ⟨[('a', 2)]⟩⟩, ⟨-1, .one⟩]⟩⟩ ∧
    (parse .default "a*a - 1").outcome = .ok ⟨⟨[⟨1, ⟨[('a', 2)]⟩⟩, ⟨-1, .one⟩]⟩⟩ ∧
    ∀ ρ n, Denotes ρ "(a+1)*(a-1)" n ↔ Denotes ρ "a*a - 1" n := by
  have left : (parse .default "(a+1)*(a-1)").outcome =
      .ok ⟨⟨[⟨1, ⟨[('a', 2)]⟩⟩, ⟨-1, .one⟩]⟩⟩ := by cbv
  have right : (parse .default "a*a - 1").outcome =
      .ok ⟨⟨[⟨1, ⟨[('a', 2)]⟩⟩, ⟨-1, .one⟩]⟩⟩ := by cbv
  exact ⟨left, right, (text_eq_iff_denotes_iff left right).1 rfl⟩

end Expression

end Expansion
