import Mathlib
import Expansion.Proofs.RoundTrip
import Expansion.Proofs.Slots
import Expansion.Proofs.TermGrammar

/-!
# Two readers of a signed monomial

**Theorem (`parse_signed_monomial`).** A text that is read as a term is read as the sum of this one
term, too, unless it is a minus sign alone, which is the number -1 for one reader and an operator
without its operand for the other. And the text of a term is read as that term, where a variable
term with factor 0 is the number 0.

The reader of terms takes a minus sign in front as a part of the term, and gives it to the
coefficient before there is a term. The reader of sums takes it as an operator, and changes the sign
of the term that it has read behind it. Where there is anything behind the sign, this is the same
(`readUnsigned_negative`), so both readers agree on all texts without operators behind the sign,
those that they refuse included (`parse_of_ofTerm`).
-/

namespace Expansion

/-! ## One run behind a sign -/

theorem Outline.IsWord.isOfTerm {t : Token} (h : IsWord t) : t.IsOfTerm := by
  obtain ⟨l, i⟩ := t
  rcases h with ⟨x, rfl⟩ | ⟨ds, rfl⟩ <;> exact ⟨rfl, rfl⟩

/-- Tokens that are neither blank nor operators are one operand. -/
theorem Item.ofTokens_ofTerm {t : Token} {ts : List Token} (h : ∀ u ∈ t :: ts, u.IsOfTerm) :
    ofTokens (t :: ts) = [.operand (.run ⟨t, ts⟩)] :=
  foldr_push_ofTerm h nofun

namespace Summands

theorem read_run (r : Run) :
    read [.operand (.run r)] = Term.ofTokens r.tokens >>= fun t => .ok ⟨[t]⟩ := by
  show ((Term.ofTokens r.tokens >>= State.start.addTerm) >>= pure) >>= _ = _
  cases Term.ofTokens r.tokens <;> rfl

theorem read_minus_run (place : Span) (r : Run) : read [.operator .sub place, .operand (.run r)] =
    Term.ofTokens r.tokens >>= fun t => .ok ⟨[-t]⟩ := by
  show ((Term.ofTokens r.tokens >>= fun t => State.addTerm t _) >>= pure) >>= _ = _
  cases Term.ofTokens r.tokens <;> rfl

end Summands

namespace Term

variable {ts : List Token}

/-- A sign in front of a term that is not empty can be given to it when it has been read. -/
theorem readUnsigned_negative (ne : ts ≠ []) :
    readUnsigned true ts = readUnsigned false ts >>= fun t => .ok (-t) := by
  by_cases touching : Touching ts
  · rcases number_or_free ts with ⟨ds, i, us, rfl⟩ | free
    · rw [readUnsigned_number true touching, readUnsigned_number false touching]
      cases readPowers .one us <;> rfl
    · rw [readUnsigned_bare true ne free touching, readUnsigned_bare false ne free touching]
      cases readPowers .one ts <;> rfl
  · cases check : checkTouching ts with
    | error e =>
      unfold readUnsigned
      rw [check]
      rfl
    | ok => exact absurd (checkTouching_eq_ok_iff.1 check) touching

theorem body_of_ofTerm (h : ∀ t ∈ ts, t.IsOfTerm) : startsNegative ts = false ∧ body ts = ts := by
  match ts with
  | [] => exact ⟨rfl, rfl⟩
  | ⟨l, i⟩ :: ts =>
    cases l with
    | operator op => cases (h _ List.mem_cons_self).2
    | _ => exact ⟨rfl, rfl⟩

/-- Tokens are those behind the sign, or have none. -/
theorem startsNegative_cases (ts : List Token) :
    (startsNegative ts = false ∧ body ts = ts) ∨
      startsNegative ts = true ∧ ∃ i, ts = ⟨.operator .sub, i⟩ :: body ts := by
  match ts with
  | [] => exact .inl ⟨rfl, rfl⟩
  | ⟨l, i⟩ :: ts =>
    cases l with
    | operator op =>
      cases op with
      | sub => exact .inr ⟨rfl, i, rfl⟩
      | _ => exact .inl ⟨rfl, rfl⟩
    | _ => exact .inl ⟨rfl, rfl⟩

theorem ofTokens_ofTerm (h : ∀ t ∈ ts, t.IsOfTerm) : ofTokens ts = readUnsigned false ts := by
  obtain ⟨sign, body⟩ := body_of_ofTerm h
  rw [ofTokens_eq, sign, body]

end Term

/-! ## The readers agree -/

/-- Behind a sign, or without one, tokens that are neither blank nor operators are read as a sum of
one term, which is what they are read as by the reader of terms. If it refuses them, the other one
does so for the same reason. -/
theorem Summands.read_ofTokens {ts : List Token} (ofTerm : ∀ t ∈ Term.body ts, t.IsOfTerm)
    (ne : Term.body ts ≠ []) :
    read (Item.ofTokens ts) = Term.ofTokens ts >>= fun t => .ok ⟨[t]⟩ := by
  obtain ⟨u, us, body⟩ := List.exists_cons_of_ne_nil ne
  rw [body] at ofTerm
  have run := Item.ofTokens_ofTerm ofTerm
  rcases Term.startsNegative_cases ts with ⟨-, same⟩ | ⟨sign, i, eq⟩
  · rw [← same, body, run, read_run]
    rfl
  · have items : Item.ofTokens ts = .operator .sub _ :: Item.ofTokens (Term.body ts) :=
      congrArg Item.ofTokens eq
    rw [Term.ofTokens_eq, sign, items, body, run, read_minus_run, Run.tokens,
      Term.ofTokens_ofTerm ofTerm, Term.readUnsigned_negative (List.cons_ne_nil u us), bind_assoc]
    rfl

/-- Of a text without operators behind a sign, both readers make the same, unless it is a sign
alone. -/
theorem Polynomial.parse_of_ofTerm {text : String}
    (ofTerm : ∀ t ∈ Term.body (significantTokens text), t.IsOfTerm)
    (more : ∀ i, significantTokens text ≠ [⟨.operator .sub, i⟩]) :
    Polynomial.parse text = Term.parse text >>= fun t => .ok ⟨[t]⟩ := by
  rw [Polynomial.parse, ← Item.ofTokens_filter, Term.parse]
  show Summands.read (Item.ofTokens (significantTokens text)) = _
  by_cases nothing : Term.body (significantTokens text) = []
  · rcases Term.startsNegative_cases (significantTokens text) with ⟨-, same⟩ | ⟨-, i, eq⟩
    · rw [← same, nothing]
      rfl
    · rw [nothing] at eq
      exact absurd eq (more i)
  · exact Summands.read_ofTokens ofTerm nothing

theorem Term.isOfTerm_of_parse {text : String} {t : Term} (h : Term.parse text = .ok t) :
    ∀ u ∈ body (significantTokens text), u.IsOfTerm := by
  rw [parse, ofTokens_eq] at h
  have letters := lettersLower_body (lettersLower_significantTokens text)
  obtain ⟨-, c, ps, sound⟩ := sound_of_readUnsigned letters h
  exact fun u mem => (sound.spells.isWord u mem).isOfTerm

/-! ## The text of a term -/

/-- A number is its absolute value with its sign. -/
theorem Numeral.signed_natAbs (n : Int) : signed (decide (n < 0)) n.natAbs = n := by
  by_cases negative : n < 0
  · rw [decide_eq_true negative, signed, if_pos rfl]
    omega
  · rw [decide_eq_false negative, signed, if_neg Bool.false_ne_true]
    omega

namespace Term

/-- Tokens that are written for a monomial are read as it. -/
theorem readUnsigned_of_writesMonomial {n : Nat} {ps : List (Char × Nat)} {ts : List Token}
    (negative : Bool) (h : WritesMonomial n ps ts)
    (small : ∀ x, Monomial.total x ps ≤ maxExponent) :
    readUnsigned negative ts = .ok ⟨Numeral.signed negative n, .ofPowers ps⟩ := by
  cases h with
  | bare powers ne touching =>
    exact readUnsigned_of_sound negative ⟨.bare powers, small⟩ touching ne
  | scaled powers touching =>
    exact readUnsigned_of_sound negative ⟨.scaled powers, small⟩ touching (List.cons_ne_nil _ _)

/-- The tokens of the text of a term. -/
theorem significantTokens_text {t : Term} (shows : t.Shows) :
    significantTokens t.text = Token.place 0 t.firstLexemes := by
  have lexemes : lexemes t.chars = t.firstLexemes := by
    have alone : Expansion.lexemes (t.chars ++ []) = t.firstLexemes ++ [] :=
      lexemes_chars (List.forall_mem_singleton.2 shows)
    rwa [List.append_nil, List.append_nil] at alone
  rw [significantTokens, tokenize, text, String.toList_ofList, lexemes]
  refine List.filter_eq_self.2 fun u hu => ?_
  rw [(derives_formula shows.1 0).not_blank u hu]
  rfl

/-- The sign is in front of the tokens for the names and the absolute value of the factor. -/
theorem exists_writesMonomial_text {t : Term} (shows : t.Shows) :
    startsNegative (significantTokens t.text) = decide (t.factor < 0) ∧
      WritesMonomial t.factor.natAbs t.monomial.powers (body (significantTokens t.text)) := by
  rw [significantTokens_text shows, firstLexemes]
  by_cases negative : t.factor < 0
  · rw [if_pos negative, decide_eq_true negative]
    exact ⟨rfl, writesMonomial_place shows.1 _⟩
  · rw [if_neg negative, decide_eq_false negative]
    have writes := writesMonomial_place shows.1 0
    have words := (Outline.isWord_of_writesMonomial writes).2
    obtain ⟨sign, body⟩ := body_of_ofTerm fun u mem => (words u mem).isOfTerm
    rw [body]
    exact ⟨sign, writes⟩

/-- A term that shows in its text is read back from it. -/
theorem parse_text {t : Term} (shows : t.Shows) : parse t.text = .ok t := by
  obtain ⟨sign, writes⟩ := exists_writesMonomial_text shows
  have normal := shows.1.toNormal
  have small : ∀ x, Monomial.total x t.monomial.powers ≤ maxExponent :=
    normal.fits_iff.1 shows.1.fits
  rw [parse, ofTokens_eq, readUnsigned_of_writesMonomial _ writes small, sign,
    Numeral.signed_natAbs, normal.ofPowers_powers]

/-- The term that is read where `t` is written is another one only for a variable term with factor
0. -/
theorem shown_eq (t : Term) :
    t.shown = if t.isConstant = false ∧ t.factor = 0 then .zero else t := by
  rw [shown]
  by_cases zero : t.factor = 0
  · rw [if_pos zero]
    cases constant : t.isConstant with
    | false => exact (if_pos ⟨rfl, zero⟩).symm
    | true =>
      have one : t.monomial = .one := Monomial.isOne_iff.1 constant
      rw [if_neg fun h => Bool.noConfusion h.1]
      exact congrArg₂ Term.mk zero.symm one.symm
  · rw [if_neg zero, if_neg fun h => zero h.2]

end Term

/-- A text that is read as a term is read as the sum of this term, unless it is a minus sign alone.
The text of a term with exponents that fit is read as this term or, if it is a variable term with
factor 0, as the number 0. -/
theorem parse_signed_monomial :
    (∀ text t, Term.parse text = .ok t → (∀ i, significantTokens text ≠ [⟨.operator .sub, i⟩]) →
      Polynomial.parse text = .ok ⟨[t]⟩) ∧
    ∀ t : Term, t.monomial.Lettered →
      Term.parse t.text = .ok (if t.isConstant = false ∧ t.factor = 0 then .zero else t) := by
  constructor
  · intro text t read more
    rw [Polynomial.parse_of_ofTerm (Term.isOfTerm_of_parse read) more, read]
    rfl
  · intro t lettered
    have same : t.text = t.shown.text := congrArg String.ofList t.chars_shown.symm
    rw [← Term.shown_eq, same]
    exact Term.parse_text (Term.shows_shown lettered)

/-- With an exponent 0 the sign belongs to a number, and there is nothing left of a variable term
with factor 0 in its text. -/
theorem parse_signed_monomial_vanished :
    Polynomial.parse " -\n3a0" = .ok ⟨[.constant (-3)]⟩ ∧
    Term.text ⟨0, ⟨[('a', 2), ('b', 1000)]⟩⟩ = "0" ∧ Term.parse "0" = .ok .zero ∧
    Term.text ⟨-1, ⟨[('a', 2), ('b', 1000)]⟩⟩ = "-a2b1000" ∧
    Term.parse "-a2b1000" = .ok ⟨-1, ⟨[('a', 2), ('b', 1000)]⟩⟩ := by
  have read : Term.parse " -\n3a0" = .ok (.constant (-3)) := by cbv
  have more : ∀ i, significantTokens " -\n3a0" ≠ [⟨.operator .sub, i⟩] := by
    have tokens : (significantTokens " -\n3a0").length = 4 := by cbv
    rintro i alone
    rw [alone] at tokens
    cases tokens
  have lettered : Monomial.Lettered ⟨[('a', 2), ('b', 1000)]⟩ := by decide
  have zero : Term.text ⟨0, ⟨[('a', 2), ('b', 1000)]⟩⟩ = "0" := by decide
  have minus : Term.text ⟨-1, ⟨[('a', 2), ('b', 1000)]⟩⟩ = "-a2b1000" := by decide
  obtain ⟨agrees, shows⟩ := parse_signed_monomial
  exact ⟨agrees _ _ read more, zero, zero ▸ shows ⟨0, _⟩ lettered, minus,
    minus ▸ shows ⟨-1, _⟩ lettered⟩

end Expansion
