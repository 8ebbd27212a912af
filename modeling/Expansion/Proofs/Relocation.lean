import Expansion.Proofs.Outlines
import Expansion.Proofs.Arrangement
import Expansion.Proofs.Tokens

/-!
# Moving the places of a text

What a sequence of items is worked out to does not depend on where in the text its tokens stand, as
long as those that touch still touch and the others still do not. A *relocation* says where starts
and ends of regions go. An error is then about the moved regions, and is the same otherwise.

**Theorem (`valueOf_relocate`).** The outcome for moved items is the moved outcome.

There is one such equation for every reader and every pass, from single tokens up.
-/

namespace Expansion

/-- Where the starts of regions go, and where their ends go. -/
structure Relocation where
  start : Nat → Nat
  stop : Nat → Nat

/-- Everything is moved `n` bytes to the right. -/
def Relocation.shift (n : Nat) : Relocation := ⟨(· + n), (· + n)⟩

/-! ## What is moved -/

section

variable {α β ν ν' : Type} (μ : Relocation)

/-- The region where a region goes. -/
def Span.relocate (s : Span) : Span := ⟨μ.start s.start, μ.stop s.stop⟩

/-- The error about the moved regions. -/
def Error.relocate : Error → Error
  | unclosed s => unclosed (s.relocate μ)
  | unopened s => unopened (s.relocate μ)
  | emptyParenthesis s => emptyParenthesis (s.relocate μ)
  | nestingTooDeep limit s => nestingTooDeep limit (s.relocate μ)
  | malformedTerm found s => malformedTerm found (s.relocate μ)
  | missingOperand op s => missingOperand op (s.relocate μ)
  | missingOperator s t => missingOperator (s.relocate μ) (t.relocate μ)
  | malformedBinding entry s => malformedBinding entry (s.relocate μ)
  | duplicateBinding name s t => duplicateBinding name (s.relocate μ) (t.relocate μ)
  | exponentTooLarge s => exponentTooLarge (s.relocate μ)

/-- The outcome of a computation with its regions moved, where `f` moves a result. -/
def Relocation.outcome (f : α → β) : Except Error α → Except Error β
  | .ok a => .ok (f a)
  | .error e => .error (e.relocate μ)

/-- The run of the moved tokens. -/
def Run.relocate (r : Run) : Run :=
  ⟨r.first.relocate μ.start, r.rest.map (Token.relocate μ.start)⟩

/-- The operand with its places moved, where `f` moves a value. -/
def Operand.relocate (f : ν → ν') : Operand ν → Operand ν'
  | run r => run (r.relocate μ)
  | value v => value (f v)

/-- The item with its places moved, where `f` moves an operand. -/
def Item.relocate (f : α → β) : Item α → Item β
  | operator op place => operator op (place.relocate μ)
  | operand a => operand (f a)

/-- The value at the moved region. -/
def Value.relocate (v : Value) : Value := ⟨v.polynomial, v.place.relocate μ⟩

/-- The signs at the moved region. -/
def Signs.relocate (s : Signs) : Signs := { s with place := s.place.relocate μ }

/-- The gap with the places of its operators moved. -/
def Summands.Gap.relocate : Gap → Gap
  | start sign => start (sign.map fun (op, place) => (op, place.relocate μ))
  | sum op place => sum op (place.relocate μ)
  | product left place => product left (place.relocate μ)

/-- The state with the places of its operators moved. -/
def Summands.State.relocate : State → State
  | before done gap negative => before done (gap.relocate μ) negative
  | after done last => after done last

/-- The outline of the moved tokens. -/
def Outline.relocate : Outline → Outline
  | nil => nil
  | token t rest => token (t.relocate μ.start) rest.relocate
  | group opening body closing rest =>
    group (opening.relocate μ.start) body.relocate (closing.relocate μ.start) rest.relocate

end

variable {μ : Relocation}

@[simp] theorem Relocation.outcome_ok {α β : Type} (f : α → β) (a : α) :
    μ.outcome f (.ok a) = .ok (f a) := rfl

@[simp] theorem Relocation.outcome_error {α β : Type} (f : α → β) (e : Error) :
    μ.outcome f (.error e) = .error (e.relocate μ) := rfl

/-- What follows a moved result decides how the whole is moved. -/
theorem Relocation.outcome_bind {α α' β β' : Type} {f : α → α'} {g : β → β'} {x : Except Error α}
    {k : α → Except Error β} {k' : α' → Except Error β'}
    (h : ∀ a, x = .ok a → k' (f a) = μ.outcome g (k a)) :
    (μ.outcome f x >>= k') = μ.outcome g (x >>= k) := by
  cases x with
  | error e => rfl
  | ok a => exact h a rfl

theorem Relocation.outcome_eq_ok_iff {α : Type} {x : Except Error α} {a : α} :
    μ.outcome id x = .ok a ↔ x = .ok a := by
  cases x <;> simp

/-! ## Tokens that are kept apart and together -/

namespace Token

@[simp] theorem start_relocate (ψ : Nat → Nat) (t : Token) : (t.relocate ψ).start = ψ t.start := rfl

end Token

/-- Tokens keep their lengths, and those that touch are the same as before. -/
structure Relocation.Keeps (μ : Relocation) (ts : List Token) : Prop where
  stop : ∀ t ∈ ts, (t.relocate μ.start).stop = μ.stop t.stop
  touching : ∀ t ∈ ts, ∀ u ∈ ts, μ.stop t.stop = μ.start u.start ↔ t.stop = u.start

namespace Relocation.Keeps

variable {ts us : List Token} {t : Token}

theorem mono (h : μ.Keeps us) (sub : ts ⊆ us) : μ.Keeps ts :=
  ⟨fun t ht => h.stop t (sub ht), fun t ht u hu => h.touching t (sub ht) u (sub hu)⟩

theorem tail (h : μ.Keeps (t :: ts)) : μ.Keeps ts := h.mono (List.subset_cons_self t ts)

theorem span (h : μ.Keeps (t :: ts)) : (t.relocate μ.start).span = t.span.relocate μ :=
  congrArg (Span.mk (μ.start t.start)) (h.stop t List.mem_cons_self)

theorem cover (h : μ.Keeps (t :: ts)) :
    Token.cover (t.relocate μ.start) (ts.map (Token.relocate μ.start)) =
      (Token.cover t ts).relocate μ := by
  have last : ts.getLast?.getD t ∈ t :: ts := by
    cases ts using List.reverseRecOn with
    | nil => exact List.mem_cons_self
    | append_singleton ts u => simp
  have stop : ((ts.map (Token.relocate μ.start)).getLast?.getD (t.relocate μ.start)) =
      (ts.getLast?.getD t).relocate μ.start := by
    rw [List.getLast?_map, Option.getD_map]
  rw [Token.cover, stop, h.stop _ last]
  rfl

end Relocation.Keeps

/-! ## Terms -/

namespace Term

variable {ts : List Token}

theorem gap?_relocate (start : Nat) (h : μ.Keeps ts) :
    gap? (μ.start start) (ts.map (Token.relocate μ.start)) =
      (gap? start ts).map fun (before, after) => (before.relocate μ, after.relocate μ) := by
  induction ts with
  | nil => rfl
  | cons t ts ih =>
    cases ts with
    | nil => rfl
    | cons u ts =>
      have touching := h.touching t List.mem_cons_self u (List.mem_cons_of_mem t List.mem_cons_self)
      rw [List.map_cons, List.map_cons, gap?, h.stop t List.mem_cons_self, Token.start_relocate,
        gap?]
      by_cases touch : t.stop = u.start
      · rw [if_pos (touching.2 touch), if_pos touch]
        exact ih h.tail
      · rw [if_neg (mt touching.1 touch), if_neg touch, h.tail.cover]
        rfl

theorem checkTouching_relocate (h : μ.Keeps ts) :
    checkTouching (ts.map (Token.relocate μ.start)) = μ.outcome id (checkTouching ts) := by
  cases ts with
  | nil => rfl
  | cons t ts =>
    have gap := gap?_relocate t.start h
    rw [List.map_cons] at gap ⊢
    rw [checkTouching, checkTouching, Token.start_relocate, gap]
    cases gap? t.start (t :: ts) <;> rfl

theorem raiseAt_relocate (m : Monomial) (x : Char) (e : Nat) (place : Span) :
    raiseAt m x e (place.relocate μ) = μ.outcome id (raiseAt m x e place) := by
  unfold raiseAt
  split <;> rfl

theorem readPowers_relocate (m : Monomial) (h : μ.Keeps ts) :
    readPowers m (ts.map (Token.relocate μ.start)) = μ.outcome id (readPowers m ts) := by
  fun_induction readPowers m ts with
  | case1 m => rfl
  | case2 m x i ds j rest ih =>
    show (raiseAt m x _ (Token.span (Token.relocate μ.start ⟨.digits ds, j⟩)) >>= fun m => _) = _
    rw [h.tail.span, raiseAt_relocate]
    exact Relocation.outcome_bind fun m' _ => ih m' h.tail.tail
  | case3 m x i rest plain ih =>
    have step : readPowers m ((⟨.letter x, i⟩ :: rest).map (Token.relocate μ.start)) =
        raiseAt m x 1 (Token.span (Token.relocate μ.start ⟨.letter x, i⟩)) >>= fun m =>
          readPowers m (rest.map (Token.relocate μ.start)) := by
      cases rest with
      | nil => rfl
      | cons u rest =>
        obtain ⟨l, j⟩ := u
        cases l with
        | digits ds => exact absurd rfl (plain ds j rest)
        | _ => rfl
    rw [step, h.span, raiseAt_relocate]
    exact Relocation.outcome_bind fun m' _ => ih m' h.tail
  | case4 m t rest no_raised no_bare =>
    obtain ⟨l, i⟩ := t
    cases l with
    | letter x => exact absurd rfl (no_bare x i)
    | _ => exact congrArg (fun s => Except.error (Error.malformedTerm _ s)) h.span

theorem readUnsigned_relocate (negative : Bool) (h : μ.Keeps ts) :
    readUnsigned negative (ts.map (Token.relocate μ.start)) =
      μ.outcome id (readUnsigned negative ts) := by
  unfold readUnsigned
  rw [checkTouching_relocate h]
  refine Relocation.outcome_bind fun _ _ => ?_
  cases ts with
  | nil => rfl
  | cons t ts =>
    obtain ⟨l, i⟩ := t
    cases l with
    | digits ds =>
      show (readPowers .one (ts.map (Token.relocate μ.start)) >>= _) = _
      rw [readPowers_relocate .one h.tail]
      exact Relocation.outcome_bind fun _ _ => rfl
    | _ =>
      exact (congrArg (· >>= _) (readPowers_relocate .one h)).trans
        (Relocation.outcome_bind fun _ _ => rfl)

theorem ofTokens_relocate (h : μ.Keeps ts) :
    ofTokens (ts.map (Token.relocate μ.start)) = μ.outcome id (ofTokens ts) := by
  cases ts with
  | nil => exact readUnsigned_relocate false h
  | cons t ts =>
    obtain ⟨l, i⟩ := t
    cases l with
    | operator op =>
      cases op with
      | sub => exact readUnsigned_relocate true h.tail
      | _ => exact readUnsigned_relocate false h
    | _ => exact readUnsigned_relocate false h

end Term

/-! ## Runs and values -/

theorem Run.tokens_relocate (r : Run) :
    (r.relocate μ).tokens = r.tokens.map (Token.relocate μ.start) := rfl

namespace Item

variable {ν : Type}

/-- The relocation keeps the tokens of every run. -/
def KeptBy (μ : Relocation) (items : List (Item (Operand ν))) : Prop :=
  ∀ r, operand (.run r) ∈ items → μ.Keeps r.tokens

theorem KeptBy.tail {item : Item (Operand ν)} {items : List (Item (Operand ν))}
    (h : KeptBy μ (item :: items)) : KeptBy μ items :=
  fun r hr => h r (List.mem_cons_of_mem item hr)

end Item

namespace Value

theorem ofRun_relocate {r : Run} (h : μ.Keeps r.tokens) :
    ofRun (r.relocate μ) = μ.outcome (relocate μ) (ofRun r) := by
  rw [ofRun, Run.tokens_relocate, Term.ofTokens_relocate h]
  refine Relocation.outcome_bind fun t _ => ?_
  exact congrArg (fun s => Except.ok (Value.mk (.ofTerm t) s)) h.cover

theorem ofOperand_relocate {a : Operand Value} (h : ∀ r, a = .run r → μ.Keeps r.tokens) :
    ofOperand (a.relocate μ (relocate μ)) = μ.outcome (relocate μ) (ofOperand a) := by
  cases a with
  | run r => exact ofRun_relocate (h r rfl)
  | value v => rfl

theorem withSigns_relocate (signs : Option Signs) (v : Value) :
    (v.relocate μ).withSigns (signs.map (Signs.relocate μ)) = (v.withSigns signs).relocate μ := by
  cases signs <;> rfl

theorem mul_relocate (place : Span) (v w : Value) :
    mul (place.relocate μ) (v.relocate μ) (w.relocate μ) =
      μ.outcome (relocate μ) (mul place v w) := by
  have left : (v.relocate μ).polynomial = v.polynomial := rfl
  have right : (w.relocate μ).polynomial = w.polynomial := rfl
  rw [mul, mul, left, right]
  cases v.polynomial.mul? w.polynomial <;> rfl

end Value

/-! ## The passes -/

namespace Operations

variable {items : List (Item (Operand Value))}

theorem mapM_ofOperand_relocate (h : Item.KeptBy μ items) :
    (items.map (Item.relocate μ (Operand.relocate μ (Value.relocate μ)))).mapM
        (·.mapM Value.ofOperand) =
      μ.outcome (List.map (Item.relocate μ (Value.relocate μ)))
        (items.mapM (·.mapM Value.ofOperand)) := by
  induction items with
  | nil => rfl
  | cons item items ih =>
    have first : (item.relocate μ (Operand.relocate μ (Value.relocate μ))).mapM Value.ofOperand =
        μ.outcome (Item.relocate μ (Value.relocate μ)) (item.mapM Value.ofOperand) := by
      cases item with
      | operator op place => rfl
      | operand a =>
        show (Value.ofOperand _ >>= _) = _
        rw [Value.ofOperand_relocate fun r hr => h r (hr ▸ List.mem_cons_self)]
        exact Relocation.outcome_bind fun _ _ => rfl
    rw [List.map_cons, List.mapM_cons, List.mapM_cons, first, ih h.tail]
    exact Relocation.outcome_bind fun _ _ => Relocation.outcome_bind fun _ _ => rfl

theorem sign_relocate (operandNext : Bool) (signs : Option Signs) (items : List (Item Value)) :
    sign operandNext (signs.map (Signs.relocate μ))
        (items.map (Item.relocate μ (Value.relocate μ))) =
      μ.outcome (List.map (Item.relocate μ (Value.relocate μ))) (sign operandNext signs items) := by
  induction items generalizing operandNext signs with
  | nil => cases signs <;> rfl
  | cons item items ih =>
    cases item with
    | operand v =>
      show (sign false none _ >>= fun rest => Except.ok
        (.operand ((v.relocate μ).withSigns (signs.map (Signs.relocate μ))) :: rest)) = _
      rw [Value.withSigns_relocate, sign]
      exact (congrArg (· >>= _) (ih false none)).trans (Relocation.outcome_bind fun _ _ => rfl)
    | operator op place =>
      rw [List.map_cons, Item.relocate]
      unfold sign
      split
      · have add : Signs.add op (place.relocate μ) (signs.map (Signs.relocate μ)) =
            (Signs.add op place signs).relocate μ := by cases signs <;> rfl
        rw [add]
        exact ih true (some _)
      · cases signs with
        | some s => rfl
        | none =>
          refine (congrArg (· >>= _) (ih true none)).trans ?_
          exact Relocation.outcome_bind fun _ _ => rfl

theorem multiply_relocate (last : Option Value) (items : List (Item Value)) :
    multiply (last.map (Value.relocate μ)) (items.map (Item.relocate μ (Value.relocate μ))) =
      μ.outcome (List.map (Item.relocate μ (Value.relocate μ))) (multiply last items) := by
  fun_induction multiply last items with
  | case1 last => cases last <;> rfl
  | case2 last v rest ih =>
    show (multiply (some (v.relocate μ)) _ >>= _) = _
    refine (congrArg (· >>= _) ih).trans (Relocation.outcome_bind fun _ _ => ?_)
    cases last <;> rfl
  | case3 place w rest v ih =>
    show (Value.mul (place.relocate μ) (v.relocate μ) (w.relocate μ) >>= _) = _
    rw [Value.mul_relocate]
    exact Relocation.outcome_bind fun product _ => ih product
  | case4 => rfl
  | case5 last place rest no_operand =>
    cases rest with
    | nil => rfl
    | cons item rest =>
      cases item with
      | operator => rfl
      | operand v => exact absurd rfl (no_operand v rest)
  | case6 last op place rest no_product no_mul ih =>
    have ne : op ≠ .mul := by
      rintro rfl
      exact no_mul rfl
    rw [List.map_cons, Item.relocate, multiply_operator ne]
    refine (congrArg (· >>= _) ih).trans (Relocation.outcome_bind fun _ _ => ?_)
    cases last <;> rfl

theorem addUpFrom_relocate (sum : Polynomial) (last : Span) (items : List (Item Value)) :
    addUpFrom sum (last.relocate μ) (items.map (Item.relocate μ (Value.relocate μ))) =
      μ.outcome id (addUpFrom sum last items) := by
  fun_induction addUpFrom sum last items with
  | case1 => rfl
  | case2 => rfl
  | case3 sum last place v rest ih => exact ih
  | case4 sum last place v rest ih => exact ih
  | case5 sum last op place rest no_sum no_difference =>
    cases rest with
    | nil => cases op <;> rfl
    | cons item rest =>
      cases item with
      | operator => cases op <;> rfl
      | operand v =>
        cases op with
        | add => exact absurd rfl (no_sum v rest rfl)
        | sub => exact absurd rfl (no_difference v rest rfl)
        | mul => rfl

theorem addUp_relocate (items : List (Item Value)) :
    addUp (items.map (Item.relocate μ (Value.relocate μ))) = μ.outcome id (addUp items) := by
  match items with
  | [] | .operator _ _ :: _ => rfl
  | .operand v :: rest => exact addUpFrom_relocate v.polynomial v.place rest

theorem combine_relocate {items : List (Item (Operand Value))} (h : Item.KeptBy μ items) :
    combine (items.map (Item.relocate μ (Operand.relocate μ (Value.relocate μ)))) =
      μ.outcome id (combine items) := by
  rw [combine, mapM_ofOperand_relocate h]
  refine Relocation.outcome_bind fun values _ => ?_
  refine (congrArg (· >>= _) (sign_relocate true none values)).trans ?_
  refine Relocation.outcome_bind fun signed _ => ?_
  refine (congrArg (· >>= _) (multiply_relocate none signed)).trans ?_
  exact Relocation.outcome_bind fun multiplied _ => addUp_relocate multiplied

end Operations

/-! ## Sums of terms -/

theorem Item.runs?_relocate {ν ν' : Type} (f : ν → ν') (items : List (Item (Operand ν))) :
    runs? (items.map (relocate μ (Operand.relocate μ f))) =
      (runs? items).map (List.map (relocate μ (Operand.relocate μ id))) := by
  induction items with
  | nil => rfl
  | cons item items ih =>
    rw [runs?, runs?] at ih
    rw [runs?, runs?, List.map_cons, List.mapM_cons, List.mapM_cons, ih]
    cases item with
    | operator op place => cases items.mapM (·.mapM Operand.run?) <;> rfl
    | operand a =>
      cases a with
      | value v => rfl
      | run r => cases items.mapM (·.mapM Operand.run?) <;> rfl

namespace Summands

theorem addTerm_relocate (s : State) (t : Term) :
    (s.relocate μ).addTerm t = μ.outcome (State.relocate μ) (s.addTerm t) := by
  cases s with
  | after done last => rfl
  | before done gap negative =>
    cases gap with
    | start | sum => rfl
    | product left place =>
      rw [State.relocate, Gap.relocate, State.addTerm, State.addTerm]
      cases left.mul? (t.withSign negative) <;> rfl

theorem addOperator_relocate (s : State) (op : Operator) (place : Span) :
    (s.relocate μ).addOperator op (place.relocate μ) =
      μ.outcome (State.relocate μ) (s.addOperator op place) := by
  cases s with
  | after done last => cases op <;> rfl
  | before done gap negative =>
    cases op with
    | mul => rfl
    | add | sub => cases gap <;> rfl

theorem add_relocate (s : State) {item : Item (Operand Empty)} (h : Item.KeptBy μ [item]) :
    (s.relocate μ).add (item.relocate μ (Operand.relocate μ id)) =
      μ.outcome (State.relocate μ) (s.add item) := by
  match item with
  | .operator op place => exact addOperator_relocate s op place
  | .operand (.run r) =>
    show (Term.ofTokens (r.tokens.map (Token.relocate μ.start)) >>= _) = _
    rw [Term.ofTokens_relocate (h r List.mem_cons_self)]
    exact Relocation.outcome_bind fun t _ => addTerm_relocate s t

theorem foldlM_relocate (s : State) {items : List (Item (Operand Empty))}
    (h : Item.KeptBy μ items) :
    (items.map (Item.relocate μ (Operand.relocate μ id))).foldlM State.add (s.relocate μ) =
      μ.outcome (State.relocate μ) (items.foldlM State.add s) := by
  induction items generalizing s with
  | nil => rfl
  | cons item items ih =>
    have first : Item.KeptBy μ [item] :=
      fun r hr => h r (List.mem_cons.2 (.inl (List.mem_singleton.1 hr)))
    rw [List.map_cons, List.foldlM_cons, add_relocate s first, List.foldlM_cons]
    exact Relocation.outcome_bind fun s' _ => ih s' h.tail

theorem finish_relocate (s : State) : (s.relocate μ).finish = μ.outcome id s.finish := by
  cases s with
  | after done last => rfl
  | before done gap negative =>
    cases gap with
    | sum | product => rfl
    | start sign => cases sign <;> rfl

theorem read_relocate {items : List (Item (Operand Empty))} (h : Item.KeptBy μ items) :
    read (items.map (Item.relocate μ (Operand.relocate μ id))) = μ.outcome id (read items) := by
  rw [read, read]
  refine (congrArg (· >>= _) (foldlM_relocate State.start h)).trans ?_
  refine Relocation.outcome_bind fun s _ => ?_
  refine (congrArg (· >>= _) (finish_relocate s)).trans ?_
  exact Relocation.outcome_bind fun ts _ => rfl

end Summands

/-! ## Items and outlines -/

/-- Where all operands are runs, the runs are those of the items. -/
theorem Item.KeptBy.runs? {ν : Type} {items : List (Item (Operand ν))}
    {runs : List (Item (Operand Empty))} (h : KeptBy μ items) (eq : Item.runs? items = some runs) :
    KeptBy μ runs := by
  induction items generalizing runs with
  | nil =>
    cases eq
    exact nofun
  | cons item items ih =>
    cases item with
    | operator op place =>
      obtain ⟨rest, all, rfl⟩ := runs?_operator eq
      intro r hr
      exact ih h.tail all r ((List.mem_cons.1 hr).resolve_left nofun)
    | operand a =>
      obtain ⟨q, rest, rfl, all, rfl⟩ := runs?_operand eq
      intro r hr
      rcases List.mem_cons.1 hr with first | hr
      · cases first
        exact h q List.mem_cons_self
      · exact ih h.tail all r hr

namespace Outline

/-- The outcome for moved items is the moved outcome. -/
theorem valueOf_relocate {items : List (Item (Operand Value))} (h : Item.KeptBy μ items) :
    valueOf (items.map (Item.relocate μ (Operand.relocate μ (Value.relocate μ)))) =
      μ.outcome id (valueOf items) := by
  rw [valueOf, Item.runs?_relocate, valueOf]
  cases eq : Item.runs? items with
  | none => exact Operations.combine_relocate h
  | some runs =>
    show (Summands.read _ >>= _) = μ.outcome id (Summands.read runs >>= _)
    rw [Summands.read_relocate (h.runs? eq)]
    exact Relocation.outcome_bind fun _ _ => rfl

end Outline

end Expansion
