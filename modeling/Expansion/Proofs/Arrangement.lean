import Expansion.Proofs.Summands

/-!
# Only arranged items can be worked out

Items are *arranged* if operators and operands alternate up to signs, which stand where an operand
may be next (`Item.Arranged`).

**Theorem (`arranged_of_combine`).** Items that can be worked out in passes are arranged.

**Theorem (`arranged_of_read`).** Items that can be read as a sum of terms are arranged, if no two
runs are neighbours.

The passes are followed backwards: what can be added up alternates strictly, and neither multiplying
nor applying signs puts right what does not. The reader of sums is followed forwards: its state says
whether an operand may be next, and it stops only after an operand. It takes two operands side by
side for two summands, which does no harm because neighbouring runs are one run.
-/

namespace Expansion

variable {ν α : Type}

namespace Item

/-- Operands, each of which satisfies `R`, and operators alternate, where plus and minus may also
stand as signs in front of an operand. Whether an operand may come next is given. -/
def Arranged (R : α → Prop) (operandNext : Bool) : List (Item α) → Prop
  | [] => operandNext = false
  | operand a :: rest => operandNext = true ∧ R a ∧ Arranged R false rest
  | operator op _ :: rest => (operandNext = true → op ≠ .mul) ∧ Arranged R true rest

/-- Operands and operators alternate strictly. -/
def Alternating (operandNext : Bool) : List (Item α) → Prop
  | [] => operandNext = false
  | operand _ :: rest => operandNext = true ∧ Alternating false rest
  | operator _ _ :: rest => operandNext = false ∧ Alternating true rest

end Item

/-- The operand has a value. -/
def Operand.Readable (a : Operand Value) : Prop := ∃ v, Value.ofOperand a = .ok v

namespace Operations

/-! ## What the passes accept -/

theorem alternating_of_addUpFrom {sum p : Polynomial} {last : Span} {items : List (Item Value)}
    (h : addUpFrom sum last items = .ok p) : Item.Alternating false items := by
  fun_induction addUpFrom sum last items with
  | case1 => rfl
  | case2 => cases h
  | case3 _ _ _ _ _ ih => exact ⟨rfl, rfl, ih h⟩
  | case4 _ _ _ _ _ ih => exact ⟨rfl, rfl, ih h⟩
  | case5 => cases h

theorem alternating_of_addUp {p : Polynomial} {items : List (Item Value)}
    (h : addUp items = .ok p) : items = [] ∨ Item.Alternating true items := by
  fun_cases addUp items with
  | case1 => exact .inl rfl
  | case2 v rest => exact .inr ⟨rfl, alternating_of_addUpFrom h⟩
  | case3 => cases h

/-- A value before the items is still there after the second pass. -/
theorem exists_of_multiply {last : Option Value} {items js : List (Item Value)}
    (h : multiply last items = .ok js) (some : last.isSome = true) :
    ∃ w ks, js = .operand w :: ks := by
  fun_induction multiply last items generalizing js with
  | case1 last =>
    obtain ⟨v, rfl⟩ := Option.isSome_iff_exists.1 some
    cases h
    exact ⟨v, [], rfl⟩
  | case3 v w place rest ih =>
    obtain ⟨product, -, h⟩ := exists_ok_of_bind h
    exact ih product h rfl
  | case4 | case5 => cases h
  | case2 last | case6 last =>
    obtain ⟨v, rfl⟩ := Option.isSome_iff_exists.1 some
    obtain ⟨ks, -, h⟩ := exists_ok_of_bind h
    cases h
    exact ⟨v, _, rfl⟩

theorem alternating_of_multiply {last : Option Value} {items js : List (Item Value)}
    (h : multiply last items = .ok js) (alternating : Item.Alternating true js) :
    Item.Alternating last.isNone items := by
  fun_induction multiply last items generalizing js with
  | case1 last =>
    cases h
    cases last with
    | none => cases alternating
    | some v => rfl
  | case2 last v rest ih =>
    obtain ⟨ks, read, h⟩ := exists_ok_of_bind h
    cases h
    cases last with
    | none => exact ⟨rfl, ih read alternating⟩
    | some u =>
      -- Two values side by side stay side by side.
      obtain ⟨w, ls, rfl⟩ := exists_of_multiply read rfl
      cases alternating.2.1
  | case3 v w place rest ih =>
    obtain ⟨product, -, h⟩ := exists_ok_of_bind h
    exact ⟨rfl, rfl, ih product h alternating⟩
  | case4 | case5 => cases h
  | case6 last op place rest _ _ ih =>
    obtain ⟨ks, read, h⟩ := exists_ok_of_bind h
    cases h
    cases last with
    | none => cases alternating.1
    | some u => exact ⟨rfl, ih read alternating.2.2⟩

theorem arranged_of_sign {operandNext : Bool} {signs : Option Signs} {items js : List (Item Value)}
    (h : sign operandNext signs items = .ok js) (alternating : Item.Alternating operandNext js) :
    Item.Arranged (fun _ => True) operandNext items := by
  fun_induction sign operandNext signs items generalizing js with
  | case1 =>
    cases h
    exact alternating
  | case2 => cases h
  | case3 operandNext signs v rest ih =>
    obtain ⟨ks, read, h⟩ := exists_ok_of_bind h
    cases h
    exact ⟨alternating.1, trivial, ih read alternating.2⟩
  | case4 operandNext signs op place rest is_sign ih =>
    obtain ⟨rfl, ne⟩ := Bool.and_eq_true_iff.1 is_sign
    exact ⟨fun _ => bne_iff_ne.1 ne, ih h alternating⟩
  | case5 operandNext op place rest no_sign ih =>
    obtain ⟨ks, read, h⟩ := exists_ok_of_bind h
    cases h
    obtain ⟨rfl, alternating⟩ := alternating
    exact ⟨nofun, ih read alternating⟩
  | case6 => cases h

theorem eq_nil_of_multiply {items : List (Item Value)} (h : multiply none items = .ok []) :
    items = [] := by
  match items with
  | [] => rfl
  | .operand v :: rest =>
    obtain ⟨ks, read, h⟩ := exists_ok_of_bind h
    obtain ⟨w, ls, rfl⟩ := exists_of_multiply read rfl
    cases h
  | .operator .mul place :: .operand w :: rest => cases h
  | .operator .mul place :: .operator op place' :: rest => cases h
  | [.operator .mul place] => cases h
  | .operator .add place :: rest | .operator .sub place :: rest =>
    obtain ⟨ks, -, h⟩ := exists_ok_of_bind h
    cases h

theorem eq_nil_of_sign {operandNext : Bool} {signs : Option Signs} {items : List (Item Value)}
    (h : sign operandNext signs items = .ok []) : items = [] ∧ signs = none := by
  fun_induction sign operandNext signs items with
  | case1 => exact ⟨rfl, rfl⟩
  | case2 | case6 => cases h
  | case3 | case5 =>
    obtain ⟨ks, -, h⟩ := exists_ok_of_bind h
    cases h
  | case4 operandNext signs op place rest is_sign ih => cases (ih h).2

theorem arranged_of_operandPass (operandNext : Bool) {items : List (Item (Operand Value))}
    {js : List (Item Value)} (h : operandPass.run items = .ok js) :
    (js = [] → items = []) ∧ (Item.Arranged (fun _ => True) operandNext js →
      Item.Arranged Operand.Readable operandNext items) := by
  induction items generalizing operandNext js with
  | nil =>
    cases h
    exact ⟨fun _ => rfl, id⟩
  | cons item items ih =>
    cases item with
    | operator op place =>
      rw [operandPass_operator] at h
      obtain ⟨ks, read, h⟩ := exists_ok_of_bind h
      cases h
      exact ⟨nofun, fun arranged => ⟨arranged.1, (ih true read).2 arranged.2⟩⟩
    | operand a =>
      rw [operandPass_operand] at h
      obtain ⟨v, value, h⟩ := exists_ok_of_bind h
      obtain ⟨ks, read, h⟩ := exists_ok_of_bind h
      cases h
      exact ⟨nofun, fun arranged => ⟨arranged.1, ⟨v, value⟩, (ih false read).2 arranged.2.2⟩⟩

/-- Items that can be worked out are arranged. -/
theorem arranged_of_combine {items : List (Item (Operand Value))} {p : Polynomial}
    (h : combine items = .ok p) : items = [] ∨ Item.Arranged Operand.Readable true items := by
  obtain ⟨values, read, h⟩ := exists_ok_of_bind h
  obtain ⟨signed, sign, h⟩ := exists_ok_of_bind h
  obtain ⟨multiplied, multiply, h⟩ := exists_ok_of_bind h
  have values := arranged_of_operandPass true read
  rcases alternating_of_addUp h with rfl | alternating
  · obtain rfl := eq_nil_of_multiply multiply
    exact .inl (values.1 (eq_nil_of_sign sign).1)
  · have signed := alternating_of_multiply multiply alternating
    exact .inr (values.2 (arranged_of_sign sign signed))

end Operations

/-! ## What is read as a sum -/

namespace Item

/-- Whether the item is a run. -/
def isRun : Item (Operand ν) → Bool
  | operand (.run _) => true
  | _ => false

theorem runs?_operator {op : Operator} {place : Span} {items : List (Item (Operand ν))}
    {runs : List (Item (Operand Empty))} (h : runs? (.operator op place :: items) = some runs) :
    ∃ rest, runs? items = some rest ∧ runs = .operator op place :: rest := by
  rw [runs?, List.mapM_cons] at h
  obtain ⟨item, first, h⟩ := Option.bind_eq_some_iff.1 h
  obtain ⟨rest, all, h⟩ := Option.bind_eq_some_iff.1 h
  cases first
  exact ⟨rest, all, (Option.some.inj h).symm⟩

theorem runs?_operand {a : Operand ν} {items : List (Item (Operand ν))}
    {runs : List (Item (Operand Empty))} (h : runs? (.operand a :: items) = some runs) :
    ∃ r rest, a = .run r ∧ runs? items = some rest ∧ runs = .operand (.run r) :: rest := by
  rw [runs?, List.mapM_cons] at h
  obtain ⟨item, first, h⟩ := Option.bind_eq_some_iff.1 h
  obtain ⟨rest, all, h⟩ := Option.bind_eq_some_iff.1 h
  cases a with
  | value v => cases first
  | run r =>
    cases first
    exact ⟨r, rest, rfl, all, (Option.some.inj h).symm⟩

/-- No two runs are neighbours. -/
def Apart (items : List (Item (Operand ν))) : Prop :=
  items.IsChain fun a b => a.isRun = true → b.isRun = false

end Item

namespace Summands

/-- Whether the next item may be an operand. -/
def State.operandNext : State → Bool
  | before _ _ _ => true
  | after _ _ => false

/-- Where an operand may be next, a plus or minus is a sign. -/
theorem addOperator_before {op : Operator} (ne : op ≠ .mul) (place : Span) (done : List Term)
    (gap : Gap) (negative : Bool) : (State.before done gap negative).addOperator op place =
      .ok (.before done (gap.addSign op place) (negative != (op == .sub))) := by
  cases op with
  | mul => exact absurd rfl ne
  | add | sub => rfl

/-- After an operand, a plus or minus ends the summand. -/
theorem addOperator_after {op : Operator} (ne : op ≠ .mul) (place : Span) (done : List Term)
    (last : Term) : (State.after done last).addOperator op place =
      .ok (.before (last :: done) (.sum op place) (op == .sub)) := by
  cases op with
  | mul => exact absurd rfl ne
  | add | sub => rfl

/-- After an operator an operand may be next, and the text may not end. -/
theorem operandNext_of_addOperator {s s' : State} {op : Operator} {place : Span}
    (h : s.addOperator op place = .ok s') :
    s'.operandNext = true ∧ (s.operandNext = true → op ≠ .mul) ∧ ∀ ts, s'.finish ≠ .ok ts := by
  cases s with
  | before done gap negative =>
    cases op with
    | mul => cases h
    | add | sub =>
      cases h
      cases gap with
      | start | sum | product => exact ⟨rfl, nofun, fun _ => nofun⟩
  | after done last =>
    cases op with
    | add | sub | mul =>
      cases h
      exact ⟨rfl, nofun, fun _ => nofun⟩

theorem operandNext_of_addTerm {s s' : State} {t : Term} (h : s.addTerm t = .ok s') :
    s'.operandNext = false := by
  cases s with
  | after done last =>
    cases h
    rfl
  | before done gap negative =>
    cases gap with
    | start | sum =>
      cases h
      rfl
    | product left place =>
      rw [State.addTerm] at h
      split at h
      · cases h
        rfl
      · cases h

theorem readable_of_ofTokens {r : Run} {t : Term} (h : Term.ofTokens r.tokens = .ok t) :
    (Operand.run r).Readable :=
  ⟨⟨.ofTerm t, r.place⟩, by rw [Value.ofOperand, Value.ofRun, h]; rfl⟩

/-- The items of a text that can be read are arranged, from every state on. -/
theorem arranged_of_foldlM {items : List (Item (Operand Value))}
    {runs : List (Item (Operand Empty))} {s s' : State} {ts : List Term}
    (all : Item.runs? items = some runs) (apart : Item.Apart items)
    (free : s.operandNext = false → ∀ item ∈ items.head?, item.isRun = false)
    (more : items ≠ [] ∨ s.operandNext = false)
    (h : runs.foldlM State.add s = .ok s') (finish : s'.finish = .ok ts) :
    Item.Arranged Operand.Readable s.operandNext items := by
  induction items generalizing runs s with
  | nil => exact more.resolve_left fun ne => ne rfl
  | cons item items ih =>
    obtain ⟨apart_head, apart_rest⟩ := List.isChain_cons.1 apart
    cases item with
    | operator op place =>
      obtain ⟨rest, all_rest, rfl⟩ := Item.runs?_operator all
      rw [List.foldlM_cons] at h
      obtain ⟨s₁, add, h⟩ := exists_ok_of_bind h
      obtain ⟨next, sign, waits⟩ := operandNext_of_addOperator add
      refine ⟨sign, next ▸ ih all_rest apart_rest ?_ (.inl ?_) h⟩
      · intro eq
        cases next.symm.trans eq
      · rintro rfl
        cases all_rest
        cases h
        exact waits ts finish
    | operand a =>
      obtain ⟨r, rest, rfl, all_rest, rfl⟩ := Item.runs?_operand all
      rw [List.foldlM_cons] at h
      obtain ⟨s₁, add, h⟩ := exists_ok_of_bind h
      obtain ⟨t, read, add⟩ := exists_ok_of_bind add
      have next := operandNext_of_addTerm add
      refine ⟨?_, readable_of_ofTokens read, next ▸ ih all_rest apart_rest ?_ (.inr next) h⟩
      · rw [← Bool.not_eq_false]
        intro eq
        cases free eq _ rfl
      · exact fun _ item first => apart_head item first rfl

theorem arranged_of_read {items : List (Item (Operand Value))}
    {runs : List (Item (Operand Empty))} {p : Polynomial} (all : Item.runs? items = some runs)
    (apart : Item.Apart items) (h : read runs = .ok p) :
    items = [] ∨ Item.Arranged Operand.Readable true items := by
  by_cases empty : items = []
  · exact .inl empty
  · obtain ⟨s, fold, h⟩ := exists_ok_of_bind h
    obtain ⟨ts, finish, -⟩ := exists_ok_of_bind h
    exact .inr (arranged_of_foldlM (s := State.start) all apart nofun (.inl empty) fold finish)

end Summands

end Expansion
