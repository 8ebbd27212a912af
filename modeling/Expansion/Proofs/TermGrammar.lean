import Mathlib
import Expansion.Proofs.BindingGrammar
import Expansion.Proofs.Fields

/-!
# The grammar of terms

**Theorem (`parse_accepts_or_blames`).** The tokens of a text that are not blank, without a minus
sign in front, spell a term if they touch each other, are an optional number and then letters, each
with an optional number behind it, and no letter gets a total exponent above `maxExponent`. These
are the texts that are read, and the term that is read has the coefficient and the totals that are
spelled. In any other text a first fault is reported: the first gap between two tokens or, if there
is none, the first token that does not belong there or whose exponent is too large.

The grammar (`Spells`), what a sound beginning is (`Sound`) and the ways it can end (`Fault`) are
stated on the tokens, without the reader. Every list of tokens that touch is sound up to its end or
up to a first fault (`exists_sound_front`), and the reader gets through a sound beginning with its
powers counted (`readUnsigned_append`). So what it says is decided by what stands behind.
-/

namespace Expansion

namespace Numeral

/-- The number with one more digit behind its own, if this fits in 32 bits. -/
def addDigit? (n : Nat) (d : Char) : Option Nat :=
  let next := 10 * n + (d.toNat - '0'.toNat)
  if next < 2 ^ 32 then some next else none

/-- The value of digits that are added one after another to a word of 32 bits. There is none if the
word gets too small for them. -/
def word? (ds : List Char) : Option Nat := ds.foldlM addDigit? 0

theorem le_ofDigitChars (ds : List Char) (n : Nat) : n ≤ Nat.ofDigitChars 10 ds n := by
  induction ds generalizing n with
  | nil => exact le_rfl
  | cons d ds ih =>
    rw [Nat.ofDigitChars_cons]
    have next := ih (10 * n + (d.toNat - '0'.toNat))
    omega

/-- Digits fit in a word exactly if their value does, however many they are. -/
theorem word?_eq (ds : List Char) :
    word? ds = if value ds < 2 ^ 32 then some (value ds) else none := by
  suffices from_here : ∀ n < 2 ^ 32, ds.foldlM addDigit? n =
      if Nat.ofDigitChars 10 ds n < 2 ^ 32 then some (Nat.ofDigitChars 10 ds n) else none from
    from_here 0 (by decide)
  induction ds with
  | nil => exact fun n small => (if_pos small).symm
  | cons d ds ih =>
    intro n _
    rw [List.foldlM_cons, addDigit?, Nat.ofDigitChars_cons]
    by_cases small : 10 * n + (d.toNat - '0'.toNat) < 2 ^ 32
    · simp only [if_pos small]
      exact ih _ small
    · have large := le_ofDigitChars ds (10 * n + (d.toNat - '0'.toNat))
      rw [if_neg small, if_neg (by omega)]
      rfl

theorem le_value_of_word? {ds : List Char} (h : word? ds = none) : 2 ^ 32 ≤ value ds := by
  rw [word?_eq, ite_eq_right_iff] at h
  exact not_lt.1 fun small => Option.some_ne_none _ (h small)

end Numeral

namespace Term

/-! ## What is written for a term -/

/-- The tokens behind a minus sign in front, or all of them if there is none. -/
def body : List Token → List Token
  | ⟨.operator .sub, _⟩ :: rest => rest
  | ts => ts

/-- An optional coefficient, and then names with optional exponents. -/
inductive Spells : Option Nat → List (Char × Nat) → List Token → Prop
  | bare {ps : List (Char × Nat)} {ts : List Token} : WritesPowers ps ts → Spells none ps ts
  | scaled {ds : List Char} {i : Nat} {ps : List (Char × Nat)} {ts : List Token} :
      WritesPowers ps ts → Spells (some (Numeral.value ds)) ps (⟨.digits ds, i⟩ :: ts)

/-- The exponents that are spelled for each name add up to at most `maxExponent`. -/
structure Sound (c : Option Nat) (ps : List (Char × Nat)) (ts : List Token) : Prop where
  spells : Spells c ps ts
  small : ∀ x, Monomial.total x ps ≤ maxExponent

/-- The coefficient with its sign. Where none is written it is 1, but without a name, too, only a
sign counts. -/
def coefficientOf (negative : Bool) : Option Nat → List (Char × Nat) → Int
  | some n, _ => if negative then -n else n
  | none, _ :: _ => if negative then -1 else 1
  | none, [] => if negative then -1 else 0

/-- The term has the coefficient, and as exponents the totals of the powers that are not 0. -/
structure IsSpelled (negative : Bool) (c : Option Nat) (ps : List (Char × Nat)) (t : Term) :
    Prop where
  factor : t.factor = coefficientOf negative c ps
  normal : t.monomial.Normal
  exponent : ∀ x, t.monomial.exponent x = Monomial.total x ps

/-- What is wrong at the start of tokens that come behind others, for which the powers `ps` are
spelled. -/
inductive Fault (front : List Token) (ps : List (Char × Nat)) : List Token → Error → Prop
  /-- With the token there is no coefficient with names and exponents any more. -/
  | malformed {t : Token} {back : List Token} : (∀ c ps, ¬Spells c ps (front ++ [t])) →
      Fault front ps (t :: back) (.malformedTerm t.text t.span)
  /-- An exponent does not fit in a word, or gets the total of its name above the limit. -/
  | digits {x : Char} {ds : List Char} {i j : Nat} {back : List Token} :
      Numeral.word? ds = none ∨ maxExponent < Monomial.total x ps + Numeral.value ds →
      Fault front ps (⟨.letter x, i⟩ :: ⟨.digits ds, j⟩ :: back)
        (.exponentTooLarge (Token.span ⟨.digits ds, j⟩))
  /-- A name without an exponent gets its total above the limit. -/
  | letter {x : Char} {i : Nat} {back : List Token} : (∀ u ∈ back.head?, ¬u.IsNumber) →
      maxExponent < Monomial.total x ps + 1 →
      Fault front ps (⟨.letter x, i⟩ :: back) (.exponentTooLarge (Token.span ⟨.letter x, i⟩))

/-- The error is what is wrong first with the tokens behind the sign: a gap between two of them, or
else something behind tokens with which nothing is wrong. -/
inductive Blamed (ts : List Token) : Error → Prop
  | gap {us vs : List Token} {t u : Token} {first second : Span} : ts = us ++ t :: u :: vs →
      Touching (us ++ [t]) → t.stop ≠ u.start → first.Over (us ++ [t]) → second.Over (u :: vs) →
      Blamed ts (.missingOperator first second)
  | fault {front rest : List Token} {c : Option Nat} {ps : List (Char × Nat)} {e : Error} :
      Touching ts → ts = front ++ rest → Sound c ps front → Fault front ps rest e → Blamed ts e

/-! ## Spelling -/

section

variable {c : Option Nat} {ps qs : List (Char × Nat)} {ts us : List Token} {t u : Token}
  {x : Char} {i j : Nat} {ds : List Char}

/-- Tokens start with a number, or they do not. -/
theorem number_or_free (ts : List Token) :
    (∃ ds i us, ts = ⟨.digits ds, i⟩ :: us) ∨ ∀ t ∈ ts.head?, ¬t.IsNumber := by
  by_cases free : ∀ t ∈ ts.head?, ¬t.IsNumber
  · exact .inr free
  · push Not at free
    obtain ⟨⟨l, i⟩, first, ds, rfl⟩ := free
    obtain ⟨us, rfl⟩ := List.head?_eq_some_iff.1 first
    exact .inl ⟨ds, i, us, rfl⟩

theorem not_isNumber_append {rest : List Token} (h : WritesPowers ps ts)
    (behind : ts = [] → ∀ t ∈ rest.head?, ¬t.IsNumber) : ∀ t ∈ (ts ++ rest).head?, ¬t.IsNumber := by
  cases ts with
  | nil => exact behind rfl
  | cons t ts => exact fun u first => not_isNumber_of_writesPowers h u first

theorem writesPowers_append (h : WritesPowers ps ts) (h' : WritesPowers qs us) :
    WritesPowers (ps ++ qs) (ts ++ us) := by
  induction h with
  | nil => exact h'
  | bare lower _ ih => exact .bare lower ih
  | raised lower _ ih => exact .raised lower ih

theorem Spells.append (h : Spells c ps ts) (h' : WritesPowers qs us) :
    Spells c (ps ++ qs) (ts ++ us) := by
  cases h with
  | bare powers => exact .bare (writesPowers_append powers h')
  | scaled powers => exact .scaled (writesPowers_append powers h')

theorem Spells.isWord (h : Spells c ps ts) : ∀ t ∈ ts, Outline.IsWord t := by
  cases h with
  | bare powers => exact Outline.isWord_of_writesPowers powers
  | scaled powers =>
    exact List.forall_mem_cons.2 ⟨.inr ⟨_, rfl⟩, Outline.isWord_of_writesPowers powers⟩

/-- Two numbers are never side by side. -/
theorem Spells.isChain (h : Spells c ps ts) : ts.IsChain fun t u => t.IsNumber → ¬u.IsNumber := by
  have powers {ps : List (Char × Nat)} {ts : List Token} (h : WritesPowers ps ts) :
      ts.IsChain fun t u => t.IsNumber → ¬u.IsNumber := by
    induction h with
    | nil => exact .nil
    | bare _ _ ih =>
      refine List.isChain_cons.2 ⟨?_, ih⟩
      rintro u - ⟨ds, digits⟩
      cases digits
    | raised _ h ih =>
      refine List.isChain_cons.2 ⟨?_, List.isChain_cons.2 ⟨fun u first _ => ?_, ih⟩⟩
      · rintro u - ⟨ds, digits⟩
        cases digits
      · exact not_isNumber_of_writesPowers h u first
  cases h with
  | bare h => exact powers h
  | scaled h =>
    exact List.isChain_cons.2 ⟨fun u first _ => not_isNumber_of_writesPowers h u first, powers h⟩

theorem not_spells_number_number (front : List Token) (ht : t.IsNumber) (hu : u.IsNumber) :
    ¬Spells c ps (front ++ [t] ++ [u]) := by
  intro spells
  have chain := List.isChain_append.1 spells.isChain
  exact chain.2.2 t List.getLast?_concat u rfl ht hu

end

/-! ## The first fault -/

/-- One more power leaves sound tokens sound, if the total of its name stays small enough. -/
theorem Sound.append {c : Option Nat} {ps : List (Char × Nat)} {front us : List Token} {x : Char}
    {e : Nat} (h : Sound c ps front) (power : WritesPowers [(x, e)] us)
    (small : Monomial.total x ps + e ≤ maxExponent) : Sound c (ps ++ [(x, e)]) (front ++ us) := by
  refine ⟨h.spells.append power, fun y => ?_⟩
  rw [Monomial.total_append, Monomial.total_cons, Monomial.total_nil]
  have := h.small y
  split
  · next same =>
    subst same
    omega
  · omega

/-- What follows sound tokens is sound with them up to the end, or up to a first fault. -/
theorem exists_sound_front {ts front : List Token} {c : Option Nat} {ps : List (Char × Nat)}
    (letters : LettersLower ts) (sound : Sound c ps front)
    (closed : ∀ t ∈ ts.head?, t.IsNumber → ∀ c ps, ¬Spells c ps (front ++ [t])) :
    ∃ front' ps' rest, front ++ ts = front' ++ rest ∧ Sound c ps' front' ∧
      (rest = [] ∨ ∃ e, Fault front' ps' rest e) := by
  -- The tokens are gone through like the reader does, one power after the other.
  induction Monomial.one, ts using readPowers.induct generalizing front ps with
  | case1 m => exact ⟨front, ps, [], rfl, sound, .inl rfl⟩
  | case2 m x i ds j rest ih =>
    obtain ⟨lower, -, letters⟩ := (List.forall_mem_cons.1 letters).imp_right List.forall_mem_cons.1
    by_cases small : Monomial.total x ps + Numeral.value ds ≤ maxExponent
    · have next := sound.append (.raised (i := i) (j := j) (lower x rfl) .nil) small
      obtain ⟨front', ps', rest', eq, sound', rest⟩ := ih Monomial.one letters next
        fun t _ number c ps => by
          rw [List.append_cons front]
          exact not_spells_number_number _ ⟨ds, rfl⟩ number
      exact ⟨front', ps', rest', by rw [← eq, List.append_assoc]; rfl, sound', rest⟩
    · exact ⟨front, ps, _, rfl, sound, .inr ⟨_, .digits (.inr (not_le.1 small))⟩⟩
  | case3 m x i rest free ih =>
    obtain ⟨lower, letters⟩ := List.forall_mem_cons.1 letters
    have free : ∀ u ∈ rest.head?, ¬u.IsNumber := by
      rintro ⟨l, j⟩ first ⟨ds, rfl⟩
      obtain ⟨rest, rfl⟩ := List.head?_eq_some_iff.1 first
      exact free ds j rest rfl
    by_cases small : Monomial.total x ps + 1 ≤ maxExponent
    · have next := sound.append (.bare (i := i) (lower x rfl) .nil) small
      obtain ⟨front', ps', rest', eq, sound', rest⟩ := ih Monomial.one letters next
        fun t first number => absurd number (free t first)
      exact ⟨front', ps', rest', by rw [← eq, List.append_assoc]; rfl, sound', rest⟩
    · exact ⟨front, ps, _, rfl, sound, .inr ⟨_, .letter free (not_le.1 small)⟩⟩
  | case4 m t rest _ other =>
    refine ⟨front, ps, t :: rest, rfl, sound, .inr ⟨_, .malformed fun c ps spells => ?_⟩⟩
    rcases spells.isWord t (by simp) with ⟨x, letter⟩ | number
    · exact other x t.start (by rw [← letter])
    · exact closed t rfl number c ps spells

theorem sound_nil : Sound none [] [] := ⟨.bare .nil, fun _ => Nat.zero_le _⟩

theorem sound_digits (ds : List Char) (i : Nat) :
    Sound (some (Numeral.value ds)) [] [⟨.digits ds, i⟩] :=
  ⟨.scaled .nil, fun _ => Nat.zero_le _⟩

/-- Tokens are sound up to the end, or up to a first fault. -/
theorem exists_sound_start {ts : List Token} (letters : LettersLower ts) :
    ∃ c front ps rest, ts = front ++ rest ∧ Sound c ps front ∧
      (rest = [] ∨ ∃ e, Fault front ps rest e) := by
  rcases number_or_free ts with ⟨ds, i, us, rfl⟩ | free
  · obtain ⟨front, ps, rest, eq, sound, rest_cases⟩ :=
      exists_sound_front (List.forall_mem_cons.1 letters).2 (sound_digits ds i)
        fun t _ number _ _ => not_spells_number_number [] ⟨ds, rfl⟩ number
    exact ⟨_, front, ps, rest, eq, sound, rest_cases⟩
  · obtain ⟨front, ps, rest, eq, sound, rest_cases⟩ :=
      exists_sound_front letters sound_nil fun t first number => absurd number (free t first)
    exact ⟨_, front, ps, rest, eq, sound, rest_cases⟩

/-! ## Tokens that touch -/

/-- Tokens touch each other, or there are two first ones of them that do not. -/
theorem touching_or_gap (ts : List Token) : Touching ts ∨ ∃ us t u vs, ts = us ++ t :: u :: vs ∧
    Touching (us ++ [t]) ∧ t.stop ≠ u.start := by
  induction ts with
  | nil => exact .inl .nil
  | cons t ts ih =>
    cases ts with
    | nil => exact .inl (.singleton t)
    | cons u ts =>
      by_cases touch : t.stop = u.start
      · rcases ih with touching | ⟨us, v, w, vs, eq, touching, apart⟩
        · exact .inl (.cons_cons touch touching)
        · refine .inr ⟨t :: us, v, w, vs, congrArg (t :: ·) eq, ?_, apart⟩
          cases us with
          | nil =>
            obtain ⟨rfl, -⟩ := List.cons.inj eq
            exact .cons_cons touch touching
          | cons r us =>
            obtain ⟨rfl, -⟩ := List.cons.inj eq
            exact .cons_cons touch touching
      · exact .inr ⟨[], t, u, ts, rfl, .singleton t, touch⟩

theorem gap?_of_apart {us : List Token} {t u : Token} (touching : Touching (us ++ [t]))
    (apart : t.stop ≠ u.start) (vs : List Token) (start : Nat) :
    gap? start (us ++ t :: u :: vs) = some (⟨start, t.stop⟩, Token.cover u vs) := by
  induction us with
  | nil => rw [List.nil_append, gap?, if_neg apart]
  | cons r us ih =>
    obtain ⟨first, touching⟩ := List.isChain_cons.1 touching
    cases us with
    | nil =>
      rw [List.cons_append, List.nil_append, gap?, if_pos (first t rfl)]
      exact ih touching
    | cons v us =>
      rw [List.cons_append, List.cons_append, gap?, if_pos (first v rfl)]
      exact ih touching

/-! ## Reading -/

theorem ofTokens_eq (ts : List Token) :
    ofTokens ts = readUnsigned (startsNegative ts) (body ts) := by
  match ts with
  | [] => rfl
  | ⟨l, i⟩ :: rest =>
    cases l with
    | operator op => cases op <;> rfl
    | _ => rfl

/-- One more power is counted, if the total of its name stays small enough. -/
theorem raiseAt_eq_ok {m : Monomial} {x : Char} {e : Nat} {ps : List (Char × Nat)}
    (small : ∀ y, (Monomial.mulPowers ((x, e) :: ps) m).exponent y ≤ maxExponent) (place : Span) :
    raiseAt m x e place = .ok (m.mulPower x e) := by
  have := small x
  rw [Monomial.exponent_mulPowers, Monomial.total_cons, if_pos rfl] at this
  exact if_pos (by omega)

/-- Powers that are spelled are counted, and the reader goes on behind them. -/
theorem readPowers_append {m : Monomial} {ps : List (Char × Nat)} {front rest : List Token}
    (h : WritesPowers ps front) (hm : m.Normal)
    (small : ∀ x, (Monomial.mulPowers ps m).exponent x ≤ maxExponent)
    (closed : ∀ t ∈ rest.head?, t.IsNumber → ∀ ps, ¬WritesPowers ps (front ++ [t])) :
    readPowers m (front ++ rest) = readPowers (Monomial.mulPowers ps m) rest := by
  induction h generalizing m with
  | nil => rfl
  | @bare x i ps ts lower h ih =>
    have free : ∀ u ∈ (ts ++ rest).head?, ¬u.IsNumber := by
      refine not_isNumber_append h ?_
      rintro rfl ⟨l, j⟩ first ⟨ds, rfl⟩
      exact closed _ first ⟨ds, rfl⟩ _ (.raised lower .nil)
    rw [List.cons_append, readPowers_letter free, raiseAt_eq_ok small]
    rw [← hm.mulPowers_mulPower] at small ⊢
    exact ih (hm.mulPower x 1) small fun t first number ps spells =>
      closed t first number _ (.bare lower spells)
  | @raised x ds i j ps ts lower h ih =>
    show (raiseAt m x (Numeral.value ds) _ >>= fun m => readPowers m (ts ++ rest)) = _
    rw [raiseAt_eq_ok small]
    rw [← hm.mulPowers_mulPower] at small ⊢
    exact ih (hm.mulPower x _) small fun t first number ps spells =>
      closed t first number _ (.raised lower spells)

theorem readUnsigned_number {ts : List Token} {ds : List Char} {i : Nat} (negative : Bool)
    (touching : Touching (⟨.digits ds, i⟩ :: ts)) : readUnsigned negative (⟨.digits ds, i⟩ :: ts) =
      readPowers .one ts >>= fun m => .ok ⟨Numeral.signed negative (Numeral.value ds), m⟩ := by
  unfold readUnsigned
  rw [checkTouching_eq_ok_iff.2 touching]
  rfl

theorem readUnsigned_bare {ts : List Token} (negative : Bool) (ne : ts ≠ [])
    (free : ∀ t ∈ ts.head?, ¬t.IsNumber) (touching : Touching ts) : readUnsigned negative ts =
      readPowers .one ts >>= fun m => .ok ⟨Numeral.signed negative 1, m⟩ := by
  unfold readUnsigned
  rw [checkTouching_eq_ok_iff.2 touching]
  match ts with
  | [] => exact absurd rfl ne
  | ⟨l, j⟩ :: ts =>
    cases l with
    | digits ds => exact absurd ⟨ds, rfl⟩ (free _ rfl)
    | _ => rfl

section

variable {c : Option Nat} {ps : List (Char × Nat)} {front rest ts : List Token} {e : Error}

/-- The reader goes on behind sound tokens with their powers counted. -/
theorem readUnsigned_append (negative : Bool) (sound : Sound c ps front)
    (touching : Touching (front ++ rest)) (ne : front ++ rest ≠ [])
    (closed : ∀ t ∈ rest.head?, t.IsNumber → ∀ c ps, ¬Spells c ps (front ++ [t])) :
    readUnsigned negative (front ++ rest) = readPowers (.ofPowers ps) rest >>= fun m =>
      .ok ⟨Numeral.signed negative (c.getD 1), m⟩ := by
  have small : ∀ x, (Monomial.mulPowers ps .one).exponent x ≤ maxExponent := fun x =>
    (Monomial.exponent_ofPowers ps x).trans_le (sound.small x)
  cases sound.spells with
  | bare powers =>
    have read := readPowers_append powers Monomial.normal_one small
      fun t first number ps spells => closed t first number none ps (.bare spells)
    have free : ∀ t ∈ (front ++ rest).head?, ¬t.IsNumber := by
      refine not_isNumber_append powers ?_
      rintro rfl ⟨l, j⟩ first ⟨ds, rfl⟩
      exact closed _ first ⟨ds, rfl⟩ _ _ (.scaled .nil)
    rw [readUnsigned_bare negative ne free touching, read]
    rfl
  | scaled powers =>
    have read := readPowers_append powers Monomial.normal_one small
      fun t first number ps spells => closed t first number _ ps (.scaled spells)
    rw [List.cons_append] at touching ⊢
    rw [readUnsigned_number negative touching, read]
    rfl

theorem readUnsigned_of_sound (negative : Bool) (sound : Sound c ps ts) (touching : Touching ts)
    (ne : ts ≠ []) :
    readUnsigned negative ts = .ok ⟨Numeral.signed negative (c.getD 1), .ofPowers ps⟩ := by
  rw [← List.append_nil ts] at touching ne ⊢
  exact readUnsigned_append negative sound touching ne nofun

/-- Sound tokens are read as the term that is spelled. -/
theorem exists_readUnsigned_of_sound (negative : Bool) (sound : Sound c ps ts)
    (touching : Touching ts) :
    ∃ t, readUnsigned negative ts = .ok t ∧ IsSpelled negative c ps t := by
  by_cases ne : ts = []
  · subst ne
    cases sound.spells with
    | bare powers =>
      cases powers
      cases negative with
      | false => exact ⟨zero, rfl, rfl, Monomial.normal_one, fun _ => rfl⟩
      | true => exact ⟨constant (-1), rfl, rfl, Monomial.normal_one, fun _ => rfl⟩
  · refine ⟨_, readUnsigned_of_sound negative sound touching ne, ?_, Monomial.normal_ofPowers ps,
      Monomial.exponent_ofPowers ps⟩
    cases sound.spells with
    | bare powers =>
      cases powers with
      | nil => exact absurd rfl ne
      | bare | raised => cases negative <;> rfl
    | scaled => rfl

theorem readPowers_of_fault (letters : LettersLower rest) (sound : Sound c ps front)
    (fault : Fault front ps rest e) : readPowers (.ofPowers ps) rest = .error e := by
  have tooLarge {x : Char} {n : Nat} (large : maxExponent < Monomial.total x ps + n)
      (place : Span) : raiseAt (.ofPowers ps) x n place = .error (.exponentTooLarge place) := by
    rw [← Monomial.exponent_ofPowers] at large
    exact if_neg (not_le.2 large)
  cases fault with
  | @malformed t back unspelled =>
    obtain ⟨l, i⟩ := t
    cases l with
    | letter x =>
      have lower := letters _ List.mem_cons_self x rfl
      exact absurd (sound.spells.append (.bare lower .nil)) (unspelled _ _)
    | _ => rfl
  | @digits x ds i j back large =>
    have large : maxExponent < Monomial.total x ps + Numeral.value ds := by
      rcases large with unfit | large
      · have small : maxExponent < 2 ^ 32 := by decide
        have huge := Numeral.le_value_of_word? unfit
        omega
      · exact large
    show (raiseAt _ x _ _ >>= fun m => readPowers m back) = _
    rw [tooLarge large]
    rfl
  | letter free large =>
    rw [readPowers_letter free, tooLarge large]
    rfl

theorem over_coverOf (ne : ts ≠ []) : (coverOf ts).Over ts := by
  cases ts with
  | nil => exact absurd rfl ne
  | cons t ts => exact over_cover t ts

theorem closed_of_fault (fault : Fault front ps rest e) :
    ∀ t ∈ rest.head?, t.IsNumber → ∀ c ps, ¬Spells c ps (front ++ [t]) := by
  cases fault with
  | malformed unspelled =>
    rintro t first -
    obtain rfl := Option.some.inj first
    exact unspelled
  | digits | letter =>
    rintro t first ⟨ds, digits⟩
    cases first
    cases digits

/-- The first fault is reported. -/
theorem readUnsigned_of_blamed (negative : Bool) (letters : LettersLower ts)
    (blamed : Blamed ts e) : readUnsigned negative ts = .error e := by
  cases blamed with
  | @gap us vs t u first second eq touching apart before behind =>
    have check := checkTouching_of_gap (gap?_of_apart touching apart vs)
    rw [← before.unique (over_coverOf (by simp)), ← behind.unique (over_coverOf (by simp)), ← eq]
      at check
    unfold readUnsigned
    rw [check]
    rfl
  | @fault front rest c ps e touching eq sound fault =>
    subst eq
    have letters := (List.forall_mem_append.1 letters).2
    have ne : front ++ rest ≠ [] := by cases fault <;> simp
    rw [readUnsigned_append negative sound touching ne (closed_of_fault fault),
      readPowers_of_fault letters sound fault]
    rfl

/-- Tokens are sound and touch, or there is something wrong first. -/
theorem sound_or_blamed (letters : LettersLower ts) :
    (Touching ts ∧ ∃ c ps, Sound c ps ts) ∨ ∃ e, Blamed ts e := by
  rcases touching_or_gap ts with touching | ⟨us, t, u, vs, rfl, touching, apart⟩
  · obtain ⟨c, front, ps, rest, rfl, sound, rfl | ⟨e, fault⟩⟩ := exists_sound_start letters
    · exact .inl ⟨touching, c, ps, by rwa [List.append_nil]⟩
    · exact .inr ⟨e, .fault touching rfl sound fault⟩
  · exact .inr ⟨_, .gap rfl touching apart (over_coverOf (by simp)) (over_coverOf (by simp))⟩

theorem sound_of_readUnsigned {negative : Bool} {t : Term} (letters : LettersLower ts)
    (read : readUnsigned negative ts = .ok t) : Touching ts ∧ ∃ c ps, Sound c ps ts := by
  rcases sound_or_blamed letters with good | ⟨e, blamed⟩
  · exact good
  · rw [readUnsigned_of_blamed negative letters blamed] at read
    cases read

end

theorem lettersLower_body {ts : List Token} (h : LettersLower ts) : LettersLower (body ts) := by
  unfold body
  split
  · exact (List.forall_mem_cons.1 h).2
  · exact h

theorem lettersLower_significantTokens (text : String) : LettersLower (significantTokens text) :=
  fun t mem => lettersLower_tokenize text t (List.mem_of_mem_filter mem)

/-- A text is read exactly if its tokens that are not blank, behind an optional minus sign, touch
each other and soundly spell an optional coefficient and names with optional exponents. The term
that is read is the one that is spelled. An error is reported exactly if it is the first fault. -/
theorem parse_accepts_or_blames (text : String) :
    ((∃ t, parse text = .ok t) ↔ Touching (body (significantTokens text)) ∧
      ∃ c ps, Sound c ps (body (significantTokens text))) ∧
    (∀ t c ps, parse text = .ok t → Sound c ps (body (significantTokens text)) →
      IsSpelled (startsNegative (significantTokens text)) c ps t) ∧
    ∀ e, parse text = .error e ↔ Blamed (body (significantTokens text)) e := by
  have letters := lettersLower_body (lettersLower_significantTokens text)
  rw [parse, ofTokens_eq]
  generalize startsNegative (significantTokens text) = negative
  generalize body (significantTokens text) = ts at letters
  refine ⟨⟨fun ⟨t, read⟩ => sound_of_readUnsigned letters read, ?_⟩, fun t c ps read sound => ?_,
    fun e => ⟨fun error => ?_, readUnsigned_of_blamed negative letters⟩⟩
  · rintro ⟨touching, c, ps, sound⟩
    obtain ⟨t, read, -⟩ := exists_readUnsigned_of_sound negative sound touching
    exact ⟨t, read⟩
  · obtain ⟨t', read', spelled⟩ :=
      exists_readUnsigned_of_sound negative sound (sound_of_readUnsigned letters read).1
    obtain rfl := Except.ok.inj (read.symm.trans read')
    exact spelled
  · rcases sound_or_blamed letters with ⟨touching, c, ps, sound⟩ | ⟨e', blamed⟩
    · obtain ⟨t, read, -⟩ := exists_readUnsigned_of_sound negative sound touching
      rw [error] at read
      cases read
    · have same := readUnsigned_of_blamed negative letters blamed
      obtain rfl := Except.error.inj (error.symm.trans same)
      exact blamed

/-- The first exponent alone is small enough. The second one gets the total of `a` above the limit,
and what is behind is not looked at. -/
example : parse "- 2a999b02a2A" = .error (.exponentTooLarge ⟨11, 12⟩) := by cbv

end Term

end Expansion
