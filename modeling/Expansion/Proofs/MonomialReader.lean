import Expansion.Proofs.Meaning
import Expansion.Proofs.Outcome
import Expansion.Term.Reader

/-!
# Reading monomials

Tokens that are written for a monomial are read as its term, unless an exponent is too large
(`ofTokens_computes`); and tokens without operators that are read as a term are written for a
monomial (`exists_writesMonomial`).

The reader keeps the product of the powers so far. It refuses a power as soon as a total passes
`maxExponent`, and since totals only grow this happens exactly if a total of the whole monomial is
too large.
-/

namespace Expansion

/-- The token is a number. -/
def Token.IsNumber (t : Token) : Prop := ∃ ds, t.lexeme = .digits ds

namespace Monomial

theorem Lettered.mulPower {m : Monomial} (hm : m.Lettered) {x : Char} (lower : x.isLower = true)
    {e : Nat} (small : m.exponent x + e ≤ maxExponent) : (m.mulPower x e).Lettered := by
  have normal := hm.toNormal.mulPower x e
  refine ⟨⟨normal, normal.fits_iff.2 ?_⟩, normal.namesIn_iff.2 ?_⟩
  · intro y
    rw [exponent_mulPower]
    have bound := hm.toNormal.fits_iff.1 hm.fits y
    split
    · next same => rw [same] at small; omega
    · omega
  · intro y positive
    rw [exponent_mulPower] at positive
    split at positive
    · next same => rwa [← same]
    · exact hm.toNormal.namesIn_iff.1 hm.letters y (by omega)

theorem Normal.mulPowers_mulPower {m : Monomial} (hm : m.Normal) (x : Char) (e : Nat)
    (ps : List (Char × Nat)) :
    Monomial.mulPowers ps (m.mulPower x e) = Monomial.mulPowers ((x, e) :: ps) m := by
  apply ((hm.mulPower x e).mulPowers ps).ext (hm.mulPowers ((x, e) :: ps))
  intro y
  rw [exponent_mulPowers, exponent_mulPowers, exponent_mulPower, total_cons]
  split <;> omega

end Monomial

namespace Term

open Monomial

/-! ## Tokens that touch -/

theorem gap?_eq_none_iff (start : Nat) {ts : List Token} : gap? start ts = none ↔ Touching ts := by
  induction ts generalizing start with
  | nil => simp [gap?, Touching]
  | cons t ts ih =>
    cases ts with
    | nil => simp [gap?, Touching]
    | cons u ts =>
      rw [gap?, Touching, List.isChain_cons_cons]
      split
      · next h => rw [ih, Touching]; simp [h]
      · next h => simp [h]

theorem checkTouching_eq_ok_iff {ts : List Token} : checkTouching ts = .ok () ↔ Touching ts := by
  cases ts with
  | nil => simp [checkTouching, Touching]
  | cons t ts =>
    rw [← gap?_eq_none_iff t.start, checkTouching]
    split <;> simp [*]

/-! ## What is written can be read -/

theorem raiseAt_yields {m : Monomial} (hm : m.Lettered) {x : Char} (lower : x.isLower = true)
    (e : Nat) (place : Span) : Yields (m.exponent x + e ≤ maxExponent) (raiseAt m x e place)
      fun n => n = m.mulPower x e ∧ n.Lettered := by
  rw [raiseAt]
  split
  · next small => exact .ok ⟨rfl, hm.mulPower lower small⟩
  · next large => exact .tooLarge large

/-- Powers do not start with a number, which would be a part of what is written before them. -/
theorem not_isNumber_of_writesPowers {ps : List (Char × Nat)} {ts : List Token}
    (h : WritesPowers ps ts) : ∀ t ∈ ts.head?, ¬t.IsNumber := by
  cases h with
  | nil => exact nofun
  | bare | raised =>
    rintro t first ⟨ds, digits⟩
    cases first
    cases digits

theorem readPowers_letter {m : Monomial} {x : Char} {i : Nat} {ts : List Token}
    (free : ∀ u ∈ ts.head?, ¬u.IsNumber) : readPowers m (⟨.letter x, i⟩ :: ts) =
      raiseAt m x 1 (Token.span ⟨.letter x, i⟩) >>= fun m => readPowers m ts := by
  match ts with
  | [] => rfl
  | ⟨l, j⟩ :: ts =>
    cases l with
    | digits ds => exact absurd ⟨ds, rfl⟩ (free _ rfl)
    | _ => rfl

/-- Reading the tokens multiplies by the powers, unless a total gets too large. -/
def ReadsPowers (ps : List (Char × Nat)) (ts : List Token) : Prop :=
  ∀ m : Monomial, m.Lettered →
    Yields (∀ x, total x ps + m.exponent x ≤ maxExponent) (readPowers m ts)
      fun n => n = mulPowers ps m ∧ n.Lettered

theorem ReadsPowers.raiseAt {ps : List (Char × Nat)} {ts : List Token} (h : ReadsPowers ps ts)
    {m : Monomial} (hm : m.Lettered) {x : Char} (lower : x.isLower = true) (e : Nat)
    (place : Span) :
    Yields (∀ y, total y ((x, e) :: ps) + m.exponent y ≤ maxExponent)
      (raiseAt m x e place >>= fun m => readPowers m ts)
      fun n => n = mulPowers ((x, e) :: ps) m ∧ n.Lettered := by
  refine .bind ((raiseAt_yields hm lower e place).mono ?_ fun _ => id) ?_
  · intro small
    have := small x
    rw [total_cons, if_pos rfl] at this
    omega
  · rintro n ⟨rfl, hn⟩
    rw [← hm.toNormal.mulPowers_mulPower]
    refine (h _ hn).mono ?_ fun _ => id
    intro small y
    -- The totals of the whole are those of the rest on top of what is read.
    have := small y
    rw [total_cons] at this
    rw [exponent_mulPower]
    split <;> split at this <;> omega

theorem readsPowers {ps : List (Char × Nat)} {ts : List Token} (h : WritesPowers ps ts) :
    ReadsPowers ps ts := by
  induction h with
  | nil => exact fun m hm => .ok ⟨rfl, hm⟩
  | bare lower h ih =>
    intro m hm
    rw [readPowers_letter (not_isNumber_of_writesPowers h)]
    exact ih.raiseAt hm lower 1 _
  | raised lower h ih => exact fun m hm => ih.raiseAt hm lower _ _

theorem ofTokens_letter (x : Char) (i : Nat) (ts : List Token) :
    ofTokens (⟨.letter x, i⟩ :: ts) = checkTouching (⟨.letter x, i⟩ :: ts) >>= fun _ =>
      readPowers one (⟨.letter x, i⟩ :: ts) >>= fun m => .ok ⟨1, m⟩ := rfl

theorem ofTokens_digits (ds : List Char) (i : Nat) (ts : List Token) :
    ofTokens (⟨.digits ds, i⟩ :: ts) = checkTouching (⟨.digits ds, i⟩ :: ts) >>= fun _ =>
      readPowers one ts >>= fun m => .ok ⟨(Numeral.value ds : Nat), m⟩ := rfl

/-- Tokens that are written for a monomial are read as its term. -/
theorem ofTokens_computes {c : Nat} {ps : List (Char × Nat)} {ts : List Token}
    (h : WritesMonomial c ps ts) : Computes (ofPowers? c ps) (ofTokens ts) := by
  have read {ts : List Token} (h : WritesPowers ps ts) :
      Computes (ofPowers? c ps) (readPowers one ts >>= fun m => .ok ⟨c, m⟩) := by
    apply ((readsPowers h one lettered_one).mono Formula.exists_ofPowers?_iff.1 fun _ => id).bind
    rintro n ⟨rfl, hn⟩
    exact .ok (if_pos hn.fits)
  cases h with
  | bare powers nonempty touching =>
    have check := checkTouching_eq_ok_iff.2 touching
    have computes := read powers
    cases powers with
    | nil => exact absurd rfl nonempty
    | bare | raised =>
      rw [ofTokens_letter, check]
      exact computes
  | scaled powers touching =>
    rw [ofTokens_digits, checkTouching_eq_ok_iff.2 touching]
    exact read powers

/-! ## What can be read is written -/

/-- The letters among the tokens are `a` to `z`, as they are in a text. -/
def LettersLower (ts : List Token) : Prop := ∀ t ∈ ts, ∀ x, t.lexeme = .letter x → x.isLower = true

theorem exists_writesPowers {m n : Monomial} {ts : List Token} (letters : LettersLower ts)
    (h : readPowers m ts = .ok n) : ∃ ps, WritesPowers ps ts := by
  fun_induction readPowers m ts with
  | case1 m => exact ⟨[], .nil⟩
  | case2 m x i ds j rest ih =>
    obtain ⟨lower, -, letters⟩ := (List.forall_mem_cons.1 letters).imp_right List.forall_mem_cons.1
    obtain ⟨m', -, h⟩ := exists_ok_of_bind h
    obtain ⟨ps, powers⟩ := ih m' letters h
    exact ⟨_, .raised (lower x rfl) powers⟩
  | case3 m x i rest _ ih =>
    obtain ⟨lower, letters⟩ := List.forall_mem_cons.1 letters
    obtain ⟨m', -, h⟩ := exists_ok_of_bind h
    obtain ⟨ps, powers⟩ := ih m' letters h
    exact ⟨_, .bare (lower x rfl) powers⟩
  | case4 => cases h

/-- Tokens that start with no operator and can be read as a term are written for a monomial. -/
theorem exists_writesMonomial {u : Token} {us : List Token} {t : Term}
    (letters : LettersLower (u :: us)) (unsigned : u.lexeme.isOperator = false)
    (h : ofTokens (u :: us) = .ok t) : ∃ c ps, WritesMonomial c ps (u :: us) := by
  obtain ⟨l, i⟩ := u
  cases l with
  | operator op => cases unsigned
  | digits ds =>
    obtain ⟨_, touching, h⟩ := exists_ok_of_bind h
    obtain ⟨m, h, -⟩ := exists_ok_of_bind h
    obtain ⟨ps, powers⟩ := exists_writesPowers (List.forall_mem_cons.1 letters).2 h
    exact ⟨_, ps, .scaled powers (checkTouching_eq_ok_iff.1 touching)⟩
  | _ =>
    obtain ⟨_, touching, h⟩ := exists_ok_of_bind h
    obtain ⟨m, h, -⟩ := exists_ok_of_bind h
    obtain ⟨ps, powers⟩ := exists_writesPowers letters h
    exact ⟨1, ps, .bare powers (List.cons_ne_nil _ _) (checkTouching_eq_ok_iff.1 touching)⟩

end Term

end Expansion
