import Expansion.Proofs.PassErrors
import Expansion.Proofs.SessionTerms
import Expansion.Proofs.Slots

/-!
# Which operator lacks its operand

The reader of sums goes through the items once, and blames the first operator that it cannot do
with: a `*` where an operand may be next, or at the end the last operator that was not a sign. The
passes blame the first sign that no operand follows, whatever comes before it, and only then a `*`
without one of its two operands, and only then a plus or minus between them.

**Theorem (`workOut_of_read`).** So they blame the same operator, with two exceptions. If no operand
follows some sign, the passes blame the first such sign, which the reader of sums never blames. And
of two `*` in a row, the passes blame the first and the reader of sums blames the second.

The two are followed side by side, up to the operator that the reader of sums blames (`Tracks`).
What the reader has multiplied is never smaller than what the passes have multiplied, where nothing
is left of exponents next to a factor 0. So no product is refused in the passes only.
-/

namespace Expansion

/-! ## What is blamed -/

namespace Item

section

variable {α : Type}

/-- The operator that the passes blame where the reader of sums blames the one at `place`: the first
sign that no operand follows, or else a `*` just before, or else the same. -/
def blamed (before : List (Item α)) (op : Operator) (place : Span) (behind : List (Item α)) :
    Operator × Span :=
  match stranded? true (before ++ operator op place :: behind), before.getLast? with
  | some sign, _ => sign
  | none, some (operator .mul place') => (.mul, place')
  | none, _ => (op, place)

variable {op : Operator} {place : Span} {before behind : List (Item α)}

theorem blamed_of_stranded {sign : Operator × Span}
    (h : stranded? true (before ++ operator op place :: behind) = some sign) :
    blamed before op place behind = sign := by
  rw [blamed, h]

theorem blamed_of_mul {place' : Span}
    (h : stranded? true (before ++ operator op place :: behind) = none)
    (last : before.getLast? = some (operator .mul place')) :
    blamed before op place behind = (.mul, place') := by
  rw [blamed, h, last]

theorem blamed_of_not_mul (h : stranded? true (before ++ operator op place :: behind) = none)
    (last : ∀ place', before.getLast? ≠ some (operator .mul place')) :
    blamed before op place behind = (op, place) := by
  rw [blamed, h]
  split
  · next eq => cases eq
  · next place' _ eq => exact absurd eq (last place')
  · rfl

end

section

/-- The operator at its moved place, or for a run a value of the term that it is read as. -/
inductive ReadAs (μ : Relocation) : Item (Operand Empty) → Item Value → Prop
  | operator (op : Operator) (place : Span) :
      ReadAs μ (.operator op place) (.operator op (place.relocate μ))
  | operand {r : Run} {t : Term} {v : Value} : Term.ofTokens r.tokens = .ok t →
      v.polynomial = .ofTerm t → ReadAs μ (.operand (.run r)) (.operand v)

variable {μ : Relocation} {items : List (Item (Operand Empty))} {values : List (Item Value)}

theorem dangles_of_readAs (h : List.Forall₂ (ReadAs μ) items values) :
    dangles values = dangles items := by
  induction h with
  | nil => rfl
  | cons first _ ih =>
    cases first with
    | operator op place => exact congrArg (op == .mul || ·) ih
    | operand => rfl

theorem exists_term_of_readAs (h : List.Forall₂ (ReadAs μ) items values) :
    ∀ r, .operand (.run r) ∈ items → ∃ t, Term.ofTokens r.tokens = .ok t := by
  induction h with
  | nil => exact nofun
  | cons first _ ih =>
    intro r mem
    rcases List.mem_cons.1 mem with rfl | mem
    · cases first with
      | operand read _ => exact ⟨_, read⟩
    · exact ih r mem

theorem stranded?_of_readAs (operandNext : Bool) (h : List.Forall₂ (ReadAs μ) items values) :
    stranded? operandNext values = (stranded? operandNext items).map
      fun sign => (sign.1, sign.2.relocate μ) := by
  induction h generalizing operandNext with
  | nil => rfl
  | cons first rest ih =>
    cases first with
    | operand => exact ih false
    | operator op place =>
      rw [stranded?, stranded?, dangles_of_readAs rest]
      split
      · rfl
      · exact ih true

end

end Item

/-! ## Both side by side -/

namespace Summands

open Operations Item

/-- What the passes go on with where the reader of sums is in a state, after the items `before`.
Some signs may have been read that no value has come for. The second and the third pass will then
make `k items` of what the first pass makes of the items to come. -/
inductive Tracks (μ : Relocation) (before : List (Item (Operand Empty))) :
    State → Option Signs → (List (Item Value) → Except Error Polynomial) → Prop
  | start {sign : Option (Operator × Span)} {negative : Bool} {signs : Option Signs} :
      (signs = none → before = []) →
      Tracks μ before (.before [] (.start sign) negative) signs (resume [] none)
  | sum {done : List Term} {op : Operator} {place : Span} {negative : Bool} {signs : Option Signs}
      {sums : List (Item Value)} : Sums sums → op ≠ .mul →
      (signs = none → before.getLast? = some (.operator op place)) →
      Tracks μ before (.before done (.sum op place) negative) signs (resume sums none)
  | product {done : List Term} {left : Term} {place : Span} {negative : Bool} {signs : Option Signs}
      {sums : List (Item Value)} {v : Value} : Sums sums → v.polynomial.Within left.monomial →
      (signs = none → before.getLast? = some (.operator .mul place)) →
      Tracks μ before (.before done (.product left place) negative) signs
        fun items => resume sums (some v) (.operator .mul (place.relocate μ) :: items)
  | after {done : List Term} {last : Term} {sums : List (Item Value)} {v : Value} : Sums sums →
      v.polynomial.Within last.monomial →
      Tracks μ before (.after done last) none (resume sums (some v))

variable {μ : Relocation} {before : List (Item (Operand Empty))} {s s' : State}
  {signs : Option Signs} {k : List (Item Value) → Except Error Polynomial}
  {item : Item (Operand Empty)} {value : Item Value} {rest signed : List (Item Value)}

/-- Where an operand may be next, a plus or minus is one more sign. -/
theorem Tracks.addSign {done : List Term} {gap : Gap} {negative : Bool}
    (h : Tracks μ before (.before done gap negative) signs k) (op : Operator) (place : Span)
    (negative' : Bool) (s : Signs) :
    Tracks μ (before ++ [item]) (.before done (gap.addSign op place) negative') (some s) k := by
  cases h with
  | start => exact .start nofun
  | sum sums ne => exact .sum sums ne nofun
  | product sums within => exact .product sums within nofun

/-- After an operand, the passes go on with an operator. -/
theorem Tracks.addOperator {done : List Term} {last : Term}
    (h : Tracks μ before (.after done last) signs k) (op : Operator) (place : Span)
    (rest : List (Item Value)) : ∃ s' k', (State.after done last).addOperator op place = .ok s' ∧
      s'.operandNext = true ∧ k (.operator op (place.relocate μ) :: rest) = k' rest ∧
      Tracks μ (before ++ [.operator op place]) s' none k' := by
  cases h with
  | @after _ _ sums v sum within =>
    by_cases mul : op = .mul
    · subst mul
      exact ⟨_, _, rfl, rfl, rfl, .product sum within fun _ => List.getLast?_concat⟩
    · exact ⟨_, _, addOperator_after mul place done last, rfl, resume_operator mul sums v _ rest,
        .sum (sum.concat mul v _) mul fun _ => List.getLast?_concat⟩

/-- The passes go on with an operand where it may be next. -/
theorem Tracks.addTerm {done : List Term} {gap : Gap} {negative : Bool} {t : Term} {v : Value}
    (h : Tracks μ before (.before done gap negative) signs k) (normal : t.monomial.Normal)
    (within : v.polynomial.Within t.monomial)
    (add : (State.before done gap negative).addTerm t = .ok s') (rest : List (Item Value)) :
    ∃ k', s'.operandNext = false ∧ k (.operand v :: rest) = k' rest ∧
      Tracks μ (before ++ [item]) s' none k' := by
  have monomial : (t.withSign negative).monomial = t.monomial := Term.monomial_withSign negative t
  cases h with
  | start =>
    cases add
    exact ⟨_, rfl, resume_operand [] v rest, .after sums_nil (monomial ▸ within)⟩
  | @sum _ _ _ _ _ sums sum =>
    cases add
    exact ⟨_, rfl, resume_operand sums v rest, .after sum (monomial ▸ within)⟩
  | @product _ left place _ _ sums u sum factor =>
    rw [State.addTerm] at add
    split at add
    · next product mul =>
      cases add
      rw [← monomial] at normal within
      obtain ⟨p, eq, product_within⟩ := factor.exists_mul? within normal mul
      have value : Value.mul (place.relocate μ) u v = .ok ⟨p, u.place.through v.place⟩ := by
        rw [Value.mul, eq]
      exact ⟨_, rfl, resume_mul value, .after sum product_within⟩
    · cases add

/-- With the reader of sums in the state `s` after the items `before`, and the values `rest` to come,
the passes come to `result`. -/
def Continues (μ : Relocation) (before : List (Item (Operand Empty))) (s : State)
    (rest : List (Item Value)) (result : Except Error Polynomial) : Prop :=
  ∃ signs k signed, Tracks μ before s signs k ∧ sign s.operandNext signs rest = .ok signed ∧
    k signed = result

variable {result : Except Error Polynomial}

theorem Continues.addOperator {op : Operator} {place : Span}
    (h : Continues μ before s (.operator op (place.relocate μ) :: rest) result)
    (add : s.addOperator op place = .ok s') :
    Continues μ (before ++ [.operator op place]) s' rest result := by
  obtain ⟨signs, k, signed, tracks, sign, rfl⟩ := h
  cases s with
  | before done gap negative =>
    -- The first pass keeps the sign, and nothing is added to what comes out of it.
    have ne : op ≠ .mul := (operandNext_of_addOperator add).2.1 rfl
    cases (addOperator_before ne place done gap negative).symm.trans add
    exact ⟨_, k, signed, tracks.addSign op place _ _,
      (sign_plusMinus ne signs _ rest).symm.trans sign, rfl⟩
  | after done last =>
    -- No signs wait after an operand, so that the operator comes out of the first pass.
    obtain rfl : signs = none := by
      cases tracks
      rfl
    obtain ⟨signed', eq, sign⟩ := exists_ok_of_bind sign
    cases sign
    obtain ⟨s₁, k', add', next, eq', tracks⟩ := tracks.addOperator op place signed'
    obtain rfl : s' = s₁ := Except.ok.inj (add.symm.trans add')
    rw [← next] at eq
    exact ⟨none, k', signed', tracks, eq, eq'.symm⟩

theorem Continues.addTerm {done : List Term} {gap : Gap} {negative : Bool} {t : Term} {v : Value}
    (h : Continues μ before (.before done gap negative) (.operand v :: rest) result)
    (normal : t.monomial.Normal) (within : v.polynomial.Within t.monomial)
    (add : (State.before done gap negative).addTerm t = .ok s') :
    Continues μ (before ++ [item]) s' rest result := by
  obtain ⟨signs, k, signed, tracks, sign, rfl⟩ := h
  obtain ⟨signed', eq, sign⟩ := exists_ok_of_bind sign
  cases sign
  obtain ⟨k', next, eq', tracks⟩ :=
    tracks.addTerm normal (Value.within_withSigns within signs) add signed'
  rw [← next] at eq
  exact ⟨none, k', signed', tracks, eq, eq'.symm⟩

/-- The passes track the reader of sums through one more item. -/
theorem Continues.step (h : Continues μ before s (value :: rest) result)
    (reads : ReadAs μ item value) (free : s.operandNext = false → item.isRun = false)
    (add : s.add item = .ok s') : Continues μ (before ++ [item]) s' rest result := by
  cases reads with
  | operator op place => exact h.addOperator add
  | @operand r t v read polynomial =>
    cases s with
    | after => cases free rfl
    | before done gap negative =>
      have normal := (Term.obtained_of_ofTokens read).valid.toNormal
      rw [State.add, read] at add
      exact h.addTerm normal (polynomial ▸ Polynomial.within_ofTerm normal) add

/-- After an operator an operand may be next, and after an operand none. -/
theorem operandNext_of_foldlM (fold : before.foldlM State.add State.start = .ok s) :
    before.getLast?.any Item.isRun = !s.operandNext := by
  cases before using List.reverseRecOn with
  | nil =>
    cases fold
    rfl
  | append_singleton before item =>
    rw [List.foldlM_append] at fold
    obtain ⟨s₁, -, last⟩ := exists_ok_of_bind fold
    obtain ⟨s₂, add, same⟩ := exists_ok_of_bind last
    cases same
    rw [List.getLast?_concat, Option.any_some]
    match item with
    | .operator op place =>
      rw [(operandNext_of_addOperator add).1]
      rfl
    | .operand (.run r) =>
      obtain ⟨t, -, add⟩ := exists_ok_of_bind add
      rw [operandNext_of_addTerm add]
      rfl

/-- The passes track the reader of sums through the items that it accepts. -/
theorem Continues.run {items behind : List (Item (Operand Empty))} {values : List (Item Value)}
    (h : Continues μ before s values result)
    (reads : List.Forall₂ (ReadAs μ) (items ++ behind) values)
    (free : s.operandNext = false → ∀ item ∈ items.head?, item.isRun = false)
    (apart : Item.Apart items) (fold : items.foldlM State.add s = .ok s') :
    ∃ rest, List.Forall₂ (ReadAs μ) behind rest ∧
      Continues μ (before ++ items) s' rest result := by
  induction items generalizing before s values with
  | nil =>
    cases fold
    exact ⟨values, reads, (List.append_nil before).symm ▸ h⟩
  | cons item items ih =>
    cases reads with
    | cons first reads =>
      rw [List.foldlM_cons] at fold
      obtain ⟨s₁, add, fold⟩ := exists_ok_of_bind fold
      obtain ⟨apart_head, apart⟩ := List.isChain_cons.1 apart
      have h₁ := h.step first (fun after => free after item rfl) add
      have free₁ (after : s₁.operandNext = false) : ∀ next ∈ items.head?, next.isRun = false := by
        match item with
        | .operator op place =>
          have before := (operandNext_of_addOperator add).1
          rw [after] at before
          cases before
        | .operand (.run r) => exact fun next head => apart_head next head rfl
      obtain ⟨rest, reads', h'⟩ := ih h₁ reads free₁ apart fold
      rw [List.append_assoc] at h'
      exact ⟨rest, reads', h'⟩

/-! ## The operator that the reader of sums blames -/

/-- The operator that waits for an operand and is no sign. -/
def Gap.operator? : Gap → Option (Operator × Span)
  | start _ => none
  | sum op place => some (op, place)
  | product _ place => some (.mul, place)

theorem operator?_addSign (op : Operator) (place : Span) (gap : Gap) :
    (gap.addSign op place).operator? = gap.operator? := by
  cases gap <;> rfl

/-- With nothing but signs behind, the operator right after the items `before` waits for an
operand. -/
structure Waits (before behind : List (Item (Operand Empty))) (s : State) : Prop where
  fold : before.foldlM State.add State.start = .ok s
  after : s.operandNext = false
  signs : ∀ item ∈ behind, item.isPlusMinus = true

variable {items : List (Item (Operand Empty))} {op : Operator} {place : Span}

/-- If an operand may be next, there was none yet, or an operator waits for it. -/
theorem exists_waits {done : List Term} {gap : Gap} {negative : Bool}
    (fold : items.foldlM State.add State.start = .ok (.before done gap negative)) :
    (gap.operator? = none ∧ ∀ item ∈ items, item.isRun = false) ∨
    ∃ op place before behind s, gap.operator? = some (op, place) ∧
      items = before ++ .operator op place :: behind ∧ Waits before behind s := by
  induction items using List.reverseRecOn generalizing done gap negative with
  | nil =>
    cases fold
    exact .inl ⟨rfl, nofun⟩
  | append_singleton items item ih =>
    rw [List.foldlM_append] at fold
    obtain ⟨s₁, first, last⟩ := exists_ok_of_bind fold
    obtain ⟨s₂, add, same⟩ := exists_ok_of_bind last
    cases same
    match item with
    | .operand (.run r) =>
      -- Behind an operand, there is an operator next.
      obtain ⟨t, -, add⟩ := exists_ok_of_bind add
      cases operandNext_of_addTerm add
    | .operator op place =>
      have add : s₁.addOperator op place = .ok (.before done gap negative) := add
      cases s₁ with
      | before done₁ gap₁ negative₁ =>
        -- A sign: what waited still does.
        have ne : op ≠ .mul := (operandNext_of_addOperator add).2.1 rfl
        cases (addOperator_before ne place done₁ gap₁ negative₁).symm.trans add
        rw [operator?_addSign]
        rcases ih first with
          ⟨nothing, free⟩ | ⟨op', place', before, behind, s, found, rfl, waits⟩
        · exact .inl ⟨nothing, List.forall_mem_append.2 ⟨free, List.forall_mem_singleton.2 rfl⟩⟩
        · have signs : ∀ item ∈ behind ++ [.operator op place], item.isPlusMinus = true :=
            List.forall_mem_append.2 ⟨waits.signs, List.forall_mem_singleton.2 (bne_iff_ne.2 ne)⟩
          exact .inr ⟨op', place', before, _, s, found, List.append_assoc .., { waits with signs }⟩
      | after done₁ last =>
        -- The operator behind an operand waits.
        refine .inr ⟨op, place, items, [], _, ?_, rfl, first, rfl, nofun⟩
        cases op <;> cases add <;> rfl

/-- Where terms can be read, the reader of sums stops only at a `*` where an operand may be next, or
because of exponents. -/
theorem exists_split_of_foldlM
    (terms : ∀ r, .operand (.run r) ∈ items → ∃ t, Term.ofTokens r.tokens = .ok t)
    (missing : items.foldlM State.add s = .error (.missingOperand op place)) :
    op = .mul ∧ ∃ before behind s', items = before ++ .operator op place :: behind ∧
      before.foldlM State.add s = .ok s' ∧ s'.operandNext = true := by
  induction items generalizing s with
  | nil => cases missing
  | cons item items ih =>
    rw [List.foldlM_cons] at missing
    cases add : s.add item with
    | ok s₁ =>
      rw [add] at missing
      -- The reader stops later.
      obtain ⟨mul, before, behind, s', rfl, fold, next⟩ :=
        ih (fun r hr => terms r (List.mem_cons_of_mem _ hr)) missing
      refine ⟨mul, item :: before, behind, s', rfl, ?_, next⟩
      rw [List.foldlM_cons, add]
      exact fold
    | error e =>
      rw [add] at missing
      cases missing
      -- It stops here: at an operator, that is a `*` without a left operand.
      match item with
      | .operator op' place' =>
        cases s with
        | before done gap negative =>
          cases op' with
          | mul =>
            cases add
            exact ⟨rfl, [], items, _, rfl, rfl, rfl⟩
          | add | sub => cases add
        | after done last => cases op' <;> cases add
      | .operand (.run r) =>
        obtain ⟨t, read⟩ := terms r List.mem_cons_self
        rw [State.add, read] at add
        have add : s.addTerm t = .error (.missingOperand op place) := add
        fun_cases State.addTerm t s <;> simp_all [State.addTerm]

/-- The reader of sums blames a `*` where an operand may be next, or the operator that waits for an
operand at the end. This is never a sign, if there are terms at all. -/
theorem exists_blamed
    (terms : ∀ r, .operand (.run r) ∈ items → ∃ t, Term.ofTokens r.tokens = .ok t)
    (run : ∃ item ∈ items, item.isRun = true)
    (missing : read items = .error (.missingOperand op place)) :
    ∃ before behind s, items = before ++ .operator op place :: behind ∧
      (before.foldlM State.add State.start = .ok s ∧ s.operandNext = true ∧ op = .mul ∨
        Waits before behind s) := by
  rw [read] at missing
  cases fold : items.foldlM State.add State.start with
  | error e =>
    rw [fold] at missing
    cases missing
    obtain ⟨mul, before, behind, s, eq, fold, next⟩ := exists_split_of_foldlM terms fold
    exact ⟨before, behind, s, eq, .inl ⟨fold, next, mul⟩⟩
  | ok s =>
    rw [fold] at missing
    have missing : (s.finish >>= fun ts => .ok (Polynomial.mk ts)) =
        .error (.missingOperand op place) := missing
    cases s with
    | after done last => cases missing
    | before done gap negative =>
      rcases exists_waits fold with ⟨-, free⟩ | ⟨op', place', before, behind, s, found, eq, waits⟩
      · obtain ⟨item, mem, is_run⟩ := run
        rw [free item mem] at is_run
        cases is_run
      · obtain ⟨rfl, rfl⟩ : op' = op ∧ place' = place := by
          cases gap with
          | start => cases found
          | sum | product =>
            cases found
            cases missing
            exact ⟨rfl, rfl⟩
        exact ⟨before, behind, s, eq, .inr waits⟩

/-! ## What the passes blame -/

/-- Where no sign lacks its operand, the passes fail at a `*` where an operand may be next, or at a
`*` just before it. -/
theorem Tracks.fails_at_mul {done : List Term} {gap : Gap} {negative : Bool}
    {behind : List (Item (Operand Empty))} (h : Tracks μ before (.before done gap negative) none k)
    (followed : stranded? true (before ++ .operator .mul place :: behind) = none)
    (rest : List (Item Value)) : k (.operator .mul (place.relocate μ) :: rest) =
      .error (.missingOperand (blamed before .mul place behind).1
        ((blamed before .mul place behind).2.relocate μ)) := by
  cases h with
  | start nothing =>
    obtain rfl := nothing rfl
    rw [blamed_of_not_mul followed nofun]
    exact resume_mul_none [] _ rest
  | sum _ ne last =>
    have not_mul (place' : Span) : before.getLast? ≠ some (.operator .mul place') := by
      rw [last rfl]
      rintro ⟨⟩
      exact ne rfl
    rw [blamed_of_not_mul followed not_mul]
    exact resume_mul_none _ _ rest
  | product _ _ last =>
    rw [blamed_of_mul followed (last rfl)]
    exact resume_mul_of_not_operand _ _ _ fun _ _ => nofun

/-- At the end, an operator right after an operand lacks its other one. -/
theorem Tracks.fails_at_end {done : List Term} {last : Term}
    (h : Tracks μ before (.after done last) signs k) (op : Operator) (place : Span) :
    k [.operator op place] = .error (.missingOperand op place) := by
  cases h with
  | @after _ _ sums v sum _ =>
    by_cases mul : op = .mul
    · subst mul
      exact resume_mul_of_not_operand _ _ _ fun _ _ => nofun
    · rw [resume_operator mul]
      show addUp (sums ++ [.operand v, .operator op place] ++ []) = _
      rw [List.append_nil]
      exact sum.addUp_concat v op place

/-- If the first pass ends with a result, no operand is missing for any sign. -/
theorem stranded?_of_sign_eq_ok {items : List (Item (Operand Empty))} {values : List (Item Value)}
    (reads : List.Forall₂ (ReadAs μ) items values)
    (sign : Operations.sign true none values = .ok signed) : stranded? true items = none := by
  have refuses := sign_refuses_stranded values
  rw [stranded?_of_readAs true reads, sign] at refuses
  cases eq : stranded? true items with
  | none => rfl
  | some sign' =>
    rw [eq] at refuses
    cases refuses

/-- Where no sign lacks its operand, the passes fail where the reader of sums does, or just
before. -/
theorem Continues.fails {behind : List (Item (Operand Empty))}
    (h : Continues μ before s rest result)
    (followed : stranded? true (before ++ .operator op place :: behind) = none)
    (cause : before.foldlM State.add State.start = .ok s ∧ s.operandNext = true ∧ op = .mul ∨
      Waits before behind s)
    (reads : List.Forall₂ (ReadAs μ) (.operator op place :: behind) rest) :
    result = .error (.missingOperand (blamed before op place behind).1
      ((blamed before op place behind).2.relocate μ)) := by
  obtain ⟨signs, k, signed, tracks, sign, rfl⟩ := h
  cases reads with
  | @cons _ _ _ rest first reads =>
    cases first
    cases s with
    | before done gap negative =>
      -- There is a `*` where an operand may be next. The first pass refuses it behind signs.
      obtain ⟨-, -, rfl⟩ := cause.resolve_right fun waits => nomatch waits.after
      cases signs with
      | some s => cases sign
      | none =>
        obtain ⟨signed', -, eq⟩ := exists_ok_of_bind sign
        cases eq
        exact tracks.fails_at_mul followed signed'
    | after done last =>
      -- There are only signs behind the operator, which would lack their operand: it is the last.
      have waits := cause.resolve_left fun mul => nomatch mul.2.1
      obtain rfl : signs = none := by
        cases tracks
        rfl
      obtain ⟨signed', behind_sign, eq⟩ := exists_ok_of_bind sign
      cases eq
      obtain rfl := eq_nil_of_signs waits.signs (stranded?_of_sign_eq_ok reads behind_sign)
      cases reads
      cases behind_sign
      have not_mul (place' : Span) : before.getLast? ≠ some (.operator .mul place') := by
        intro last
        have ends := operandNext_of_foldlM waits.fold
        rw [last] at ends
        cases ends
      rw [blamed_of_not_mul followed not_mul]
      exact tracks.fails_at_end op _

end Summands

namespace Operations

open Item Summands

/-- Where the reader of sums blames an operator, the passes blame the first sign that no operand
follows, or else a `*` just before it, or else the same operator. It is no sign. -/
theorem workOut_of_read {μ : Relocation} {items : List (Item (Operand Empty))}
    {values : List (Item Value)} {op : Operator} {place : Span}
    (reads : List.Forall₂ (ReadAs μ) items values) (apart : Item.Apart items)
    (run : ∃ item ∈ items, item.isRun = true)
    (missing : Summands.read items = .error (.missingOperand op place)) :
    ∃ before behind, items = before ++ .operator op place :: behind ∧
      (op = .mul ∨ before.getLast?.any Item.isRun = true) ∧
      workOut values = .error (.missingOperand (blamed before op place behind).1
        ((blamed before op place behind).2.relocate μ)) := by
  obtain ⟨before, behind, s, rfl, cause⟩ := exists_blamed (exists_term_of_readAs reads) run missing
  have fold : before.foldlM State.add State.start = .ok s :=
    cause.elim (fun mul => mul.1) fun waits => waits.fold
  refine ⟨before, behind, rfl, ?_, ?_⟩
  · rw [operandNext_of_foldlM fold]
    exact cause.imp (fun mul => mul.2.2) fun waits => by rw [waits.after]; rfl
  have refuses := sign_refuses_stranded values
  rw [stranded?_of_readAs true reads] at refuses
  cases followed : stranded? true (before ++ .operator op place :: behind) with
  | some sign' =>
    rw [followed] at refuses
    rw [workOut, show sign true _ values = _ from refuses, blamed_of_stranded followed]
    rfl
  | none =>
    rw [followed] at refuses
    obtain ⟨signed, sign⟩ := refuses
    have start : Continues μ [] State.start values (workOut values) := by
      refine ⟨none, resume [] none, signed, .start fun _ => rfl, sign, ?_⟩
      rw [workOut, sign]
      rfl
    obtain ⟨rest, reads, continues⟩ :=
      start.run reads (fun after => absurd after.symm Bool.false_ne_true)
        (List.isChain_append.1 apart).1 fold
    exact continues.fails followed cause reads

end Operations

end Expansion
