import Expansion.Proofs.Defects
import Expansion.Proofs.Parsing

/-!
# What errors are about

An error names regions of the text. Before a text comes into it, this is about tokens: an error that
is reported for a list of tokens without blanks is about some of them (`Error.About`), and its
regions reach over just these.

**Theorem (`reports_itemsOf`).** The items of an outline cover its tokens, and an error in making
them is about the tokens.

**Theorem (`reports_valueOf`).** An error in working out items that cover tokens is about the
tokens.

`Reports` is what is shown of each reader and each pass: it ends with a good result, or with an
error that is about the tokens at hand. It is kept under sequencing (`Reports.bind`) and with more
tokens around (`Reports.mono`).
-/

namespace Expansion

/-! ## Errors and tokens -/

/-- The region reaches from the first of the tokens to the last. -/
def Span.Over (s : Span) (ts : List Token) : Prop :=
  ∃ t u, ts.head? = some t ∧ ts.getLast? = some u ∧ s = t.span.through u.span

/-- The operator at the region is one of the tokens. -/
def OperatorAt (ts : List Token) (op : Operator) (place : Span) : Prop :=
  ∃ i, ⟨.operator op, i⟩ ∈ ts ∧ place = Token.span ⟨.operator op, i⟩

/-- The token raises an exponent: digits behind a letter, a letter alone, or a `*`. -/
def Token.Raises (t : Token) : Prop :=
  (∃ ds, t.lexeme = .digits ds) ∨ (∃ x, t.lexeme = .letter x) ∨ t.lexeme = .operator .mul

/-- The error is about some of the tokens, which are not blank. -/
inductive Error.About (ts : List Token) : Error → Prop
  | unclosed {t : Token} : t ∈ ts → t.lexeme = .opening → About ts (.unclosed t.span)
  | unopened {t : Token} : t ∈ ts → t.lexeme = .closing → About ts (.unopened t.span)
  | emptyParenthesis {t u : Token} : [t, u] <:+: ts → t.lexeme = .opening → u.lexeme = .closing →
      About ts (.emptyParenthesis (t.span.through u.span))
  | nestingTooDeep {t u : Token} {us : List Token} {limit : Nat} : t :: (us ++ [u]) <:+: ts →
      t.lexeme = .opening → u.lexeme = .closing → Balanced us →
      About ts (.nestingTooDeep limit (t.span.through u.span))
  | malformedTerm {t : Token} : t ∈ ts → About ts (.malformedTerm t.text t.span)
  | missingOperand {op : Operator} {place : Span} : OperatorAt ts op place →
      About ts (.missingOperand op place)
  | missingOperator {us vs : List Token} {first second : Span} : us ++ vs <:+: ts →
      first.Over us → second.Over vs → About ts (.missingOperator first second)
  | exponentTooLarge {t : Token} : t ∈ ts → t.Raises → About ts (.exponentTooLarge t.span)

section

variable {t u : Token} {ts us vs : List Token} {s s' : Span} {op : Operator} {place : Span}

theorem Span.Over.ne_nil (h : s.Over ts) : ts ≠ [] := by
  rintro rfl
  obtain ⟨t, u, first, -⟩ := h
  cases first

theorem over_singleton (t : Token) : t.span.Over [t] := ⟨t, t, rfl, rfl, rfl⟩

theorem over_cover (t : Token) (ts : List Token) : (Token.cover t ts).Over (t :: ts) :=
  ⟨t, ts.getLast?.getD t, rfl, List.getLast?_cons, rfl⟩

/-- The region from the start of tokens to the end of later ones reaches over all of them. -/
theorem Span.Over.through (h : s.Over us) (h' : s'.Over vs) (ts : List Token) :
    (s.through s').Over (us ++ (ts ++ vs)) := by
  obtain ⟨t, u, first, -, rfl⟩ := h
  obtain ⟨t', u', -, last, rfl⟩ := h'
  refine ⟨t, u', ?_, ?_, rfl⟩
  · rw [List.head?_append, first, Option.some_or]
  · rw [List.getLast?_append, List.getLast?_append, last, Option.some_or, Option.some_or]

theorem OperatorAt.mono (h : OperatorAt us op place) (sub : us ⊆ ts) : OperatorAt ts op place :=
  h.imp fun _ h => ⟨sub h.1, h.2⟩

theorem operatorAt_head (op : Operator) (i : Nat) (ts : List Token) :
    OperatorAt (⟨.operator op, i⟩ :: ts) op (Token.span ⟨.operator op, i⟩) :=
  ⟨i, List.mem_cons_self, rfl⟩

theorem Error.About.exponent (h : OperatorAt ts .mul place) :
    Error.About ts (.exponentTooLarge place) := by
  obtain ⟨i, mem, rfl⟩ := h
  exact .exponentTooLarge mem (.inr (.inr rfl))

theorem Error.About.mono {e : Error} (h : e.About us) (sub : us <:+: ts) : e.About ts := by
  cases h with
  | unclosed mem opens => exact .unclosed (sub.subset mem) opens
  | unopened mem closes => exact .unopened (sub.subset mem) closes
  | emptyParenthesis within opens closes =>
    exact .emptyParenthesis (within.trans sub) opens closes
  | nestingTooDeep within opens closes balanced =>
    exact .nestingTooDeep (within.trans sub) opens closes balanced
  | malformedTerm mem => exact .malformedTerm (sub.subset mem)
  | missingOperand operator => exact .missingOperand (operator.mono sub.subset)
  | missingOperator within first second => exact .missingOperator (within.trans sub) first second
  | exponentTooLarge mem raises => exact .exponentTooLarge (sub.subset mem) raises

end

/-! ## Computations that report -/

/-- The computation ends with a good result, or with an error about the tokens. -/
def Reports {α : Type} (ts : List Token) (x : Except Error α) (good : α → Prop) : Prop :=
  match x with
  | .ok a => good a
  | .error e => e.About ts

namespace Reports

variable {α β : Type} {ts us : List Token} {x : Except Error α} {good : α → Prop}

theorem bind {f : α → Except Error β} {good' : β → Prop} (hx : Reports ts x good)
    (hf : ∀ a, good a → Reports ts (f a) good') : Reports ts (x >>= f) good' := by
  cases x with
  | ok a => exact hf a hx
  | error e => exact hx

theorem mono (h : Reports us x good) (sub : us <:+: ts) : Reports ts x good := by
  cases x with
  | ok a => exact h
  | error e => exact Error.About.mono h sub

theorem cons (h : Reports ts x good) (t : Token) : Reports (t :: ts) x good :=
  h.mono (List.infix_cons List.infix_rfl)

theorem behind (h : Reports ts x good) (us : List Token) : Reports (us ++ ts) x good :=
  h.mono (List.suffix_append us ts).isInfix

theorem before (h : Reports ts x good) (us : List Token) : Reports (ts ++ us) x good :=
  h.mono (List.prefix_append ts us).isInfix

end Reports

/-! ## Reading a term -/

namespace Term

variable {ts us : List Token}

theorem reports_raiseAt (m : Monomial) (x : Char) (e : Nat) {t : Token} (mem : t ∈ ts)
    (raises : t.Raises) : Reports ts (raiseAt m x e t.span) fun _ => True := by
  rw [raiseAt]
  split
  · trivial
  · exact .exponentTooLarge mem raises

theorem reports_readPowers (m : Monomial) (sub : us ⊆ ts) :
    Reports ts (readPowers m us) fun _ => True := by
  fun_induction readPowers m us with
  | case1 => trivial
  | case2 m x i ds j rest ih =>
    obtain ⟨-, sub⟩ := List.cons_subset.1 sub
    obtain ⟨mem, sub⟩ := List.cons_subset.1 sub
    exact (reports_raiseAt m x _ mem (.inl ⟨ds, rfl⟩)).bind fun m _ => ih m sub
  | case3 m x i rest _ ih =>
    obtain ⟨mem, sub⟩ := List.cons_subset.1 sub
    exact (reports_raiseAt m x 1 mem (.inr (.inl ⟨x, rfl⟩))).bind fun m _ => ih m sub
  | case4 m t rest => exact .malformedTerm (sub List.mem_cons_self)

/-- The two sides of a gap are the tokens before it and the tokens behind it. -/
theorem exists_of_gap? {start : Nat} {t : Token} {before after : Span}
    (h : gap? start (t :: ts) = some (before, after)) :
    ∃ us u vs, t :: ts = us ++ vs ∧ us.getLast? = some u ∧ before = ⟨start, u.stop⟩ ∧
      after.Over vs := by
  induction ts generalizing t with
  | nil => cases h
  | cons u rest ih =>
    rw [gap?] at h
    split at h
    · obtain ⟨us, u', vs, eq, last, before, reaches⟩ := ih h
      refine ⟨t :: us, u', vs, congrArg (t :: ·) eq, ?_, before, reaches⟩
      rw [List.getLast?_cons, last, Option.getD_some]
    · cases h
      exact ⟨[t], t, u :: rest, rfl, rfl, rfl, over_cover u rest⟩

theorem reports_checkTouching (ts : List Token) :
    Reports ts (checkTouching ts) fun _ => True := by
  cases ts with
  | nil => trivial
  | cons t ts =>
    rw [checkTouching]
    split
    · next before after gap =>
      obtain ⟨us, u, vs, eq, last, rfl, reaches⟩ := exists_of_gap? gap
      refine .missingOperator (by rw [← eq]) ?_ reaches
      cases us with
      | nil => cases last
      | cons t' us =>
        cases eq
        exact ⟨t, u, rfl, last, rfl⟩
    · trivial

theorem reports_readUnsigned (negative : Bool) (ts : List Token) :
    Reports ts (readUnsigned negative ts) fun _ => True := by
  refine (reports_checkTouching ts).bind fun _ _ => ?_
  split
  · trivial
  · next ds i rest =>
    have powers := reports_readPowers .one (List.subset_cons_self ⟨.digits ds, i⟩ rest)
    exact powers.bind fun _ _ => trivial
  · exact (reports_readPowers .one (List.Subset.refl ts)).bind fun _ _ => trivial

/-- An error in reading a term is about its tokens. -/
theorem reports_ofTokens (ts : List Token) : Reports ts (ofTokens ts) fun _ => True := by
  fun_cases ofTokens ts with
  | case1 i rest => exact (reports_readUnsigned true rest).cons _
  | case2 => exact reports_readUnsigned false ts

end Term

/-! ## Items and the tokens they stand for -/

/-- The value comes from the tokens. -/
def Value.From (v : Value) (ts : List Token) : Prop := v.place.Over ts

/-- A run stands for its tokens, and any other operand for tokens as `V` says. -/
inductive Operand.From {ν : Type} (V : ν → List Token → Prop) : Operand ν → List Token → Prop
  | run {r : Run} : From V (.run r) r.tokens
  | value {v : ν} {ts : List Token} : V v ts → From V (.value v) ts

/-- The items stand for the tokens from left to right, operators for themselves, and operands for
tokens as `R` says. -/
inductive Item.Covers {α : Type} (R : α → List Token → Prop) : List (Item α) → List Token → Prop
  | nil : Covers R [] []
  | operator {op : Operator} {i : Nat} {items : List (Item α)} {ts : List Token} :
      Covers R items ts →
      Covers R (.operator op (Token.span ⟨.operator op, i⟩) :: items) (⟨.operator op, i⟩ :: ts)
  | operand {a : α} {items : List (Item α)} {ts us : List Token} : R a ts → Covers R items us →
      Covers R (.operand a :: items) (ts ++ us)

/-! ## Reading a sum -/

namespace Summands

variable {ts us : List Token}

/-- The operators that the gap keeps in mind are among the tokens. -/
def Gap.Among (ts : List Token) : Gap → Prop
  | .start none => True
  | .start (some (op, place)) => OperatorAt ts op place
  | .sum op place => OperatorAt ts op place
  | .product _ place => OperatorAt ts .mul place

/-- The operators that the state keeps in mind are among the tokens. -/
def State.Among (ts : List Token) : State → Prop
  | .before _ gap _ => gap.Among ts
  | .after _ _ => True

theorem reports_addTerm (t : Term) {s : State} (h : s.Among ts) :
    Reports ts (s.addTerm t) (State.Among ts) := by
  fun_cases State.addTerm t s with
  | case1 | case3 | case4 => trivial
  | case2 => exact Error.About.exponent h

theorem reports_addOperator {op : Operator} {place : Span} {s : State} (h : s.Among ts)
    (operator : OperatorAt ts op place) :
    Reports ts (s.addOperator op place) (State.Among ts) := by
  fun_cases State.addOperator op place s with
  | case1 | case2 => exact operator
  | case3 => exact .missingOperand operator
  | case4 _ done gap negative =>
    cases gap with
    | start sign => exact operator
    | sum | product => exact h

theorem reports_finish {s : State} (h : s.Among ts) : Reports ts s.finish fun _ => True := by
  fun_cases State.finish s with
  | case1 | case5 => trivial
  | case2 | case3 | case4 => exact .missingOperand h

theorem reports_foldlM {items : List (Item (Operand Empty))}
    (cover : Item.Covers (Operand.From fun _ _ => False) items us) (sub : us <:+: ts) {s : State}
    (h : s.Among ts) : Reports ts (items.foldlM State.add s) (State.Among ts) := by
  induction cover generalizing s with
  | nil => exact h
  | @operator op i items us _ ih =>
    have operator := (operatorAt_head op i us).mono sub.subset
    have behind := (List.infix_cons List.infix_rfl).trans sub
    exact (reports_addOperator h operator).bind fun s hs => ih behind hs
  | operand first _ ih =>
    cases first with
    | value false => exact false.elim
    | run =>
      have term := (Term.reports_ofTokens _).mono ((List.prefix_append _ _).isInfix.trans sub)
      refine Reports.bind ?_ fun s hs => ih ((List.suffix_append _ _).isInfix.trans sub) hs
      exact term.bind fun t _ => reports_addTerm t h

/-- An error in reading a sum is about its tokens. -/
theorem reports_read {items : List (Item (Operand Empty))}
    (cover : Item.Covers (Operand.From fun _ _ => False) items ts) :
    Reports ts (read items) fun _ => True :=
  (reports_foldlM cover List.infix_rfl (s := .start) trivial).bind fun _ hs =>
    (reports_finish hs).bind fun _ _ => trivial

end Summands

/-! ## Working out values -/

namespace Operations

variable {ts us : List Token}

theorem reports_ofOperand {a : Operand Value} (h : a.From Value.From ts) :
    Reports ts (Value.ofOperand a) (Value.From · ts) := by
  cases h with
  | @run r => exact (Term.reports_ofTokens r.tokens).bind fun t _ => over_cover r.first r.rest
  | value h => exact h

theorem reports_operandPass {items : List (Item (Operand Value))}
    (cover : Item.Covers (Operand.From Value.From) items ts) :
    Reports ts (operandPass.run items) (Item.Covers Value.From · ts) := by
  induction cover with
  | nil => exact .nil
  | operator _ ih =>
    rw [operandPass_operator]
    exact (ih.cons _).bind fun js cover => .operator cover
  | @operand a items us vs first _ ih =>
    rw [operandPass_operand]
    refine ((reports_ofOperand first).before vs).bind fun v hv => ?_
    exact (ih.behind us).bind fun js cover => .operand hv cover

/-- The tokens start with the first of the signs, and there are none without signs. -/
def SignsFrom (signs : Option Signs) (ts : List Token) : Prop :=
  match signs with
  | none => ts = []
  | some s => ∃ i us, ts = ⟨.operator s.first, i⟩ :: us ∧ s.place = Token.span ⟨.operator s.first, i⟩

theorem signsFrom_none : SignsFrom none [] := rfl

theorem SignsFrom.operatorAt {s : Signs} (h : SignsFrom (some s) us) :
    OperatorAt (us ++ ts) s.first s.place := by
  obtain ⟨i, us, rfl, place⟩ := h
  exact ⟨i, List.mem_cons_self, place⟩

theorem SignsFrom.add {signs : Option Signs} (h : SignsFrom signs us) (op : Operator) (i : Nat) :
    SignsFrom (some (Signs.add op (Token.span ⟨.operator op, i⟩) signs))
      (us ++ [⟨.operator op, i⟩]) := by
  cases signs with
  | none =>
    obtain rfl := h
    exact ⟨i, [], rfl, rfl⟩
  | some s =>
    obtain ⟨j, us, rfl, place⟩ := h
    exact ⟨j, us ++ [⟨.operator op, i⟩], rfl, place⟩

theorem SignsFrom.withSigns {signs : Option Signs} {v : Value} (h : SignsFrom signs us)
    (from_ts : v.From ts) : (v.withSigns signs).From (us ++ ts) := by
  cases signs with
  | none =>
    obtain rfl := h
    exact from_ts
  | some s =>
    obtain ⟨i, us, rfl, place⟩ := h
    show (s.place.through v.place).Over _
    rw [place]
    exact (over_singleton ⟨.operator s.first, i⟩).through from_ts us

theorem reports_sign {operandNext : Bool} {signs : Option Signs} {items : List (Item Value)}
    (cover : Item.Covers Value.From items ts) (signs_from : SignsFrom signs us) :
    Reports (us ++ ts) (sign operandNext signs items) (Item.Covers Value.From · (us ++ ts)) := by
  fun_induction sign operandNext signs items generalizing us ts with
  | case1 =>
    cases cover
    obtain rfl := signs_from
    exact .nil
  | case2 => exact .missingOperand signs_from.operatorAt
  | case3 operandNext signs v rest ih =>
    cases cover with
    | @operand _ _ ts vs from_ts cover =>
      rw [← List.append_assoc]
      refine ((ih cover rfl).behind (us ++ ts)).bind fun js cover => ?_
      exact .operand (signs_from.withSigns from_ts) cover
  | case4 operandNext signs op place rest is_sign ih =>
    cases cover with
    | @operator _ i _ ts cover =>
      have whole := ih cover (signs_from.add op i)
      rwa [List.append_assoc] at whole
  | case5 operandNext op place rest no_sign ih =>
    cases cover with
    | operator cover =>
      obtain rfl := signs_from
      exact ((ih cover rfl).cons _).bind fun js cover => .operator cover
  | case6 => exact .missingOperand signs_from.operatorAt

/-- The tokens are those of the value, and there are none without a value. -/
def LastFrom (last : Option Value) (ts : List Token) : Prop :=
  match last with
  | none => ts = []
  | some v => v.From ts

theorem lastFrom_none : LastFrom none [] := rfl

theorem LastFrom.covers {last : Option Value} (h : LastFrom last us) {items : List (Item Value)}
    (cover : Item.Covers Value.From items ts) :
    Item.Covers Value.From (last.toList.map .operand ++ items) (us ++ ts) := by
  cases last with
  | none =>
    obtain rfl := h
    exact cover
  | some v => exact .operand h cover

theorem reports_mul {place : Span} {v w : Value} (hv : v.From us) (hw : w.From ts)
    (i : Nat) (place_eq : place = Token.span ⟨.operator .mul, i⟩) :
    Reports (us ++ (⟨.operator .mul, i⟩ :: ts)) (v.mul place w)
      (Value.From · (us ++ (⟨.operator .mul, i⟩ :: ts))) := by
  rw [Value.mul]
  split
  · exact Span.Over.through hv hw [⟨.operator .mul, i⟩]
  · exact Error.About.exponent ⟨i, List.mem_append_right _ List.mem_cons_self, place_eq⟩

theorem reports_multiply {items : List (Item Value)} (cover : Item.Covers Value.From items ts)
    {last : Option Value} (last_from : LastFrom last us) :
    Reports (us ++ ts) (multiply last items) (Item.Covers Value.From · (us ++ ts)) := by
  fun_induction multiply last items generalizing us ts with
  | case1 last =>
    cases cover
    rw [← List.append_nil (List.map _ _)]
    exact last_from.covers .nil
  | case2 last v rest ih =>
    cases cover with
    | @operand _ _ ts vs from_ts cover =>
      exact ((ih cover from_ts).behind us).bind fun js cover => last_from.covers cover
  | case3 v w place rest ih =>
    cases cover with
    | @operator _ i _ _ cover =>
      cases cover with
      | @operand _ _ ts vs from_ts cover =>
        have product := (reports_mul last_from from_ts i rfl).before vs
        rw [← List.cons_append, ← List.append_assoc]
        exact product.bind fun product from_product => ih product cover from_product
  | case4 | case5 =>
    cases cover with
    | @operator _ i _ ts cover =>
      exact .missingOperand ((operatorAt_head _ i ts).mono (List.subset_append_right us _))
  | case6 last op place rest _ _ ih =>
    cases cover with
    | operator cover =>
      refine (((ih cover rfl).cons _).behind us).bind fun js cover => ?_
      exact last_from.covers (.operator cover)

theorem reports_addUpFrom {items : List (Item Value)} (cover : Item.Covers Value.From items ts)
    (sum : Polynomial) {last : Span} (last_over : last.Over us) :
    Reports (us ++ ts) (addUpFrom sum last items) fun _ => True := by
  fun_induction addUpFrom sum last items generalizing us ts with
  | case1 => trivial
  | case2 sum last v rest =>
    cases cover with
    | @operand _ _ ts vs from_ts _ =>
      rw [← List.append_assoc]
      exact .missingOperator (List.prefix_append _ vs).isInfix last_over from_ts
  | case3 sum last place v rest ih | case4 sum last place v rest ih =>
    cases cover with
    | operator cover =>
      cases cover with
      | operand from_ts cover =>
        exact ((ih cover from_ts).cons _).behind us
  | case5 =>
    cases cover with
    | @operator _ i _ ts cover =>
      exact .missingOperand ((operatorAt_head _ i ts).mono (List.subset_append_right us _))

theorem reports_addUp {items : List (Item Value)} (cover : Item.Covers Value.From items ts) :
    Reports ts (addUp items) fun _ => True := by
  fun_cases addUp items with
  | case1 => trivial
  | case2 v rest =>
    cases cover with
    | operand from_ts cover => exact reports_addUpFrom cover v.polynomial from_ts
  | case3 =>
    cases cover with
    | operator cover => exact .missingOperand (operatorAt_head _ _ _)

/-- An error in working out values is about the tokens that the items stand for. -/
theorem reports_combine {items : List (Item (Operand Value))}
    (cover : Item.Covers (Operand.From Value.From) items ts) :
    Reports ts (combine items) fun _ => True :=
  (reports_operandPass cover).bind fun _ values =>
    (reports_sign values signsFrom_none).bind fun _ signed =>
      (reports_multiply signed lastFrom_none).bind fun _ multiplied =>
        reports_addUp multiplied

end Operations

/-! ## Outlines -/

namespace Item

variable {ts : List Token}

theorem Covers.runs? {items : List (Item (Operand Value))} {runs : List (Item (Operand Empty))}
    (cover : Covers (Operand.From Value.From) items ts) (h : runs? items = some runs) :
    Covers (Operand.From fun _ _ => False) runs ts := by
  induction cover generalizing runs with
  | nil =>
    cases h
    exact .nil
  | operator _ ih =>
    obtain ⟨rest, found, rfl⟩ := runs?_operator h
    exact .operator (ih found)
  | operand first _ ih =>
    obtain ⟨r, rest, rfl, found, rfl⟩ := runs?_operand h
    cases first
    exact .operand .run (ih found)

theorem Covers.push {items : List (Item (Operand Value))}
    (cover : Covers (Operand.From Value.From) items ts) (t : Token) :
    Covers (Operand.From Value.From) (push t items) (if t.isBlank then ts else t :: ts) := by
  rcases Outline.push_cases t items with ⟨blank, eq⟩ | ⟨nonblank, pushes⟩
  · rw [eq, if_pos blank]
    exact cover
  rw [if_neg (by simp [nonblank])]
  rcases pushes with ⟨op, i, rfl, eq⟩ | ⟨-, ⟨r, rest, rfl, eq⟩ | ⟨-, eq⟩⟩
  all_goals rw [eq]
  · exact .operator cover
  · cases cover with
    | operand first cover =>
      cases first
      exact .operand (.run (r := ⟨t, r.tokens⟩)) cover
  · exact .operand (.run (r := ⟨t, []⟩)) cover

end Item

theorem Balanced.filter {ts : List Token} (h : Balanced ts) : Balanced (ts.filter (!·.isBlank)) := by
  induction h with
  | nil => exact .nil
  | plain plain _ ih =>
    rw [List.filter_cons]
    split
    · exact .plain plain ih
    · exact ih
  | @pair t u ts us opens closes _ _ ih ih' =>
    have filtered : (t :: (ts ++ u :: us)).filter (!·.isBlank) =
        t :: (ts.filter (!·.isBlank) ++ u :: us.filter (!·.isBlank)) := by
      simp [Token.isBlank, opens, closes, Lexeme.isBlank]
    rw [filtered]
    exact .pair opens closes ih ih'

namespace Outline

variable {ts : List Token}

/-- An error in working out items is about the tokens that they stand for. -/
theorem reports_valueOf {items : List (Item (Operand Value))}
    (cover : Item.Covers (Operand.From Value.From) items ts) :
    Reports ts (valueOf items) fun _ => True := by
  rw [valueOf]
  split
  · next runs h => exact (Summands.reports_read (cover.runs? h)).bind fun _ _ => trivial
  · exact Operations.reports_combine cover

/-- The items of an outline stand for its tokens, and an error in making them is about these. -/
theorem reports_itemsOf {o : Outline} (paired : o.Paired) :
    Reports (o.tokens.filter (!·.isBlank)) o.itemsOf
      (Item.Covers (Operand.From Value.From) · (o.tokens.filter (!·.isBlank))) := by
  induction o with
  | nil => exact .nil
  | token t rest ih =>
    have items := ih paired
    rw [itemsOf_token, tokens, List.filter_cons]
    cases blank : t.isBlank with
    | true =>
      refine items.bind fun js cover => ?_
      have cover := cover.push t
      rwa [if_pos blank] at cover
    | false =>
      refine (items.cons t).bind fun js cover => ?_
      have cover := cover.push t
      rwa [if_neg (by simp [blank])] at cover
  | group opening body closing rest ihBody ihRest =>
    obtain ⟨l, i⟩ := opening
    obtain ⟨l', j⟩ := closing
    obtain ⟨rfl, rfl, body_paired, rest_paired⟩ := paired
    rw [itemsOf_group, filter_tokens_group]
    have inside := (ihBody body_paired).bind fun items cover => reports_valueOf cover
    refine (((inside.before _).cons _).before _).bind fun p _ => ?_
    refine ((ihRest rest_paired).behind _).bind fun js cover => ?_
    have group : Value.From ⟨p, Span.through (Token.span ⟨.opening, i⟩) (Token.span ⟨.closing, j⟩)⟩
        (⟨.opening, i⟩ :: (body.tokens.filter (!·.isBlank) ++ [⟨.closing, j⟩])) :=
      (over_singleton ⟨.opening, i⟩).through (over_singleton ⟨.closing, j⟩) _
    exact .operand (.value group) cover

/-- The defect that is reported of an outline is about its tokens. -/
theorem about_of_defect? {o : Outline} {maxDepth depth : Nat} {e : Error} (h : o.Ordered)
    (reported : o.defect? maxDepth depth = some e) : e.About (o.tokens.filter (!·.isBlank)) := by
  induction o generalizing depth with
  | nil => cases reported
  | token t rest ih =>
    rw [tokens, List.filter_cons]
    -- A parenthesis that is a token of its own is reported, any other token is passed over.
    by_cases parenthesis : t.IsParenthesis
    · obtain ⟨l, i⟩ := t
      rcases parenthesis with rfl | rfl <;> cases reported
      · exact .unclosed List.mem_cons_self rfl
      · exact .unopened List.mem_cons_self rfl
    · rw [defect?_plain parenthesis] at reported
      have about := ih h.2 reported
      split
      · exact about.mono (List.infix_cons List.infix_rfl)
      · exact about
  | group opening body closing rest ihBody ihRest =>
    obtain ⟨l, i⟩ := opening
    obtain ⟨l', j⟩ := closing
    obtain ⟨rfl, rfl, body_matched, rest_ordered⟩ := h
    rw [filter_tokens_group]
    rw [defect?] at reported
    -- A pair is reported if it is empty or too deep; then what is in it, then what is behind it.
    split at reported
    · next blank =>
      have no_tokens : body.tokens.filter (!·.isBlank) = [] :=
        List.filter_eq_nil_iff.2 fun t ht => by simp [isBlank_of_mem_tokens blank t ht]
      cases reported
      rw [no_tokens]
      exact .emptyParenthesis (List.prefix_append _ _).isInfix rfl rfl
    split at reported
    · cases reported
      exact .nestingTooDeep (List.prefix_append _ _).isInfix rfl rfl body_matched.balanced.filter
    cases inside : body.defect? maxDepth (depth + 1) with
    | some e' =>
      rw [inside] at reported
      cases reported
      have about := ihBody body_matched.onlyOpening.ordered inside
      exact about.mono (List.IsInfix.trans (List.infix_cons (List.prefix_append _ _).isInfix)
        (List.prefix_append _ _).isInfix)
    | none =>
      rw [inside] at reported
      exact (ihRest rest_ordered reported).mono (List.suffix_append _ _).isInfix

end Outline

namespace Expression

open Outline

/-- An error in reading a text is about its tokens that are not blank. -/
theorem reports_parse (options : Options) (text : String) :
    Reports (significantTokens text) (parse options text).outcome fun _ => True := by
  have tokens_eq := tokens_ofTokens (tokenize text)
  have ordered := ordered_ofTokens (tokenize text)
  have items := reports_itemsOf (paired_ofTokens (tokenize text))
  rw [tokens_eq] at items
  rw [outcome_parse]
  split
  · next e reported =>
    have about := about_of_defect? ordered reported
    rwa [tokens_eq] at about
  · exact (items.bind fun _ cover => reports_valueOf cover).bind fun _ _ => trivial

end Expression

end Expansion
