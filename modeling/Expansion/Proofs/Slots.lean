import Expansion.Proofs.GuardedTerms
import Expansion.Proofs.Walks

/-!
# Resolving with one slot for each node

The nodes of an arena can be resolved one after another, in post-order. The value of a node is put
into its *slot*, and moved out of it when the node that it is a child of is resolved. A slot that is
empty when its value is wanted would be a case that should never arise.

**Theorem (`resolve?_eq`).** It does not, and the value that is left in the slot of the whole text
is the value of the outline.

What the slots hold is followed along the outline (`Runs`): once the groups of an outline are
resolved, the slots of those that are not nested hold their values (`Filled`), and no slot of
another node was touched.
-/

namespace Expansion

open Guarded

/-! ## The items of an outline -/

namespace Item

variable {items : List (Item (Operand Value))}

@[simp] theorem runs?_operator_cons (op : Operator) (place : Span) :
    runs? (.operator op place :: items) = (runs? items).map (.operator op place :: ·) := by
  rw [runs?, List.mapM_cons, runs?]
  cases items.mapM (·.mapM Operand.run?) <;> rfl

@[simp] theorem runs?_run_cons (r : Run) :
    runs? (.operand (.run r) :: items) = (runs? items).map (.operand (.run r) :: ·) := by
  rw [runs?, List.mapM_cons, runs?]
  cases items.mapM (·.mapM Operand.run?) <;> rfl

@[simp] theorem runs?_value_cons (v : Value) : runs? (.operand (.value v) :: items) = none := by
  rw [runs?, List.mapM_cons]
  rfl

/-- A token does not change whether all operands are runs. -/
theorem runs?_push (t : Token) : runs? (push t items) = (runs? items).map (push t) := by
  obtain ⟨l, i⟩ := t
  cases l with
  | blanks cs => exact Option.map_id'.symm
  | operator op => exact runs?_operator_cons op _
  | _ => match items with
    | [] => rfl
    | .operator op place :: rest => cases h : runs? rest <;> simp [push, h]
    | .operand (.run r) :: rest => cases h : runs? rest <;> simp [push, h]
    | .operand (.value v) :: rest => simp [push]

theorem push_of_isBlank {t : Token} {ν : Type} (blank : t.isBlank = true)
    (items : List (Item (Operand ν))) : push t items = items := by
  obtain ⟨l, i⟩ := t
  cases l with
  | blanks cs => rfl
  | _ => cases blank

theorem ofTokens_filter (ts : List Token) : ofTokens (ts.filter (!·.isBlank)) = ofTokens ts := by
  induction ts with
  | nil => rfl
  | cons t ts ih =>
    show _ = push t (ofTokens ts)
    rw [List.filter_cons]
    cases blank : t.isBlank with
    | true => exact ih.trans (push_of_isBlank blank _).symm
    | false => exact congrArg (push t) ih

end Item

namespace Outline

/-- The operands of an outline are runs if there are no groups in it. -/
theorem runs?_of_itemsOf {o : Outline} {items : List (Item (Operand Value))} (id : Nat)
    (h : o.itemsOf = .ok items) : Item.runs? items =
      if o.groupIds id = [] then some (Item.ofTokens o.tokens) else none := by
  induction o generalizing items with
  | nil =>
    cases h
    rfl
  | token t rest ih =>
    rw [itemsOf_token] at h
    obtain ⟨js, eq, h⟩ := exists_ok_of_bind h
    cases h
    rw [Item.runs?_push, ih eq, groupIds]
    split <;> rfl
  | group opening body closing rest _ _ =>
    rw [itemsOf_group] at h
    obtain ⟨p, -, h⟩ := exists_ok_of_bind h
    obtain ⟨js, -, h⟩ := exists_ok_of_bind h
    cases h
    rw [Item.runs?_value_cons, groupIds, if_neg (List.cons_ne_nil _ _)]

end Outline

/-! ## The values of operands -/

namespace Operations

/-- The polynomial that a sequence of values and operators is written for. -/
def workOut (values : List (Item Value)) : Except Error Polynomial := do
  let signed ← sign true none values
  let multiplied ← multiply none signed
  addUp multiplied

end Operations

/-- A value for each of the tokens that wait, which are a single term, if there are any. -/
def Value.flush? : List Token → Guarded (List (Item Value))
  | [] => pure []
  | t :: ts => do
    let term ← Term.ofTokens? (t :: ts)
    pure [.operand ⟨.ofTerm term, Token.cover t ts⟩]

/-- The values of items, each operand evaluated. -/
abbrev Item.values (items : List (Item (Operand Value))) : Except Error (List (Item Value)) :=
  items.mapM (·.mapM Value.ofOperand)

/-- The value of each node, as long as it is kept. -/
abbrev Slots := List (Option Polynomial)

namespace Slots

/-- Moves the value out of the slot `id`. There has to be one. -/
def take? (slots : Slots) (id : Nat) : Option (Polynomial × Slots) :=
  match slots[id]? with
  | some (some p) => some (p, slots.set id none)
  | _ => none

/-- Puts the value into the slot `id`. -/
def put? (slots : Slots) (id : Nat) (p : Polynomial) : Option Slots :=
  if id < slots.length then some (slots.set id (some p)) else none

/-- The slots with those of the nodes emptied. -/
def clear (ids : List Nat) (slots : Slots) : Slots :=
  ids.foldl (fun slots id => slots.set id none) slots

end Slots

/-- The slots of the groups that are not nested hold their values, if the first group has the number
`id`. -/
def Outline.Filled (slots : Slots) (id : Nat) : Outline → Prop
  | nil => True
  | token _ rest => rest.Filled slots id
  | group _ body _ rest =>
    (∃ p, body.itemsOf >>= valueOf = .ok p ∧ slots[id]? = some (some p)) ∧
      rest.Filled slots (id + 1 + body.groupCount)

namespace Outline

variable {id : Nat} {o : Outline} {slots slots' : Slots}

/-- Only slots from the first group's on are looked at. -/
theorem Filled.congr (h : o.Filled slots id) (same : ∀ k, id ≤ k → slots'[k]? = slots[k]?) :
    o.Filled slots' id := by
  induction o generalizing id with
  | nil => trivial
  | token t rest ih => exact ih h same
  | group opening body closing rest _ ih =>
    obtain ⟨⟨p, value, filled⟩, behind⟩ := h
    refine ⟨⟨p, value, (same id le_rfl).trans filled⟩, ih behind fun k le => same k ?_⟩
    omega

theorem getElem?_clear (o : Outline) {k : Nat} (outside : k < id ∨ id + o.groupCount ≤ k) :
    (slots.clear (o.groupIds id))[k]? = slots[k]? := by
  induction o generalizing id slots with
  | nil => rfl
  | token t rest ih => exact ih outside
  | group opening body closing rest _ ih =>
    rw [groupCount] at outside
    show (Slots.clear (rest.groupIds (id + 1 + body.groupCount)) (slots.set id none))[k]? = _
    rw [ih (by omega), List.getElem?_set_ne (by omega)]

@[simp] theorem length_clear (ids : List Nat) (slots : Slots) :
    (slots.clear ids).length = slots.length := by
  induction ids generalizing slots with
  | nil => rfl
  | cons id ids ih => exact (ih _).trans (List.length_set ..)

end Outline

namespace Arena

/-- The operators and the values of the segments. The tokens `pending` wait for more tokens of their
term, and the values of children are moved out of their slots. -/
def operands? (a : Arena) :
    List Segment → (pending : List Token) → Slots → Guarded (List (Item Value) × Slots)
  | [], pending, slots => do
    let last ← Value.flush? pending
    pure (last, slots)
  | .token t :: rest, pending, slots =>
    match t.lexeme with
    | .operator op => do
      let before ← Value.flush? pending
      let (after, slots) ← operands? a rest [] slots
      pure (before ++ .operator op t.span :: after, slots)
    | _ => operands? a rest (pending ++ [t]) slots
  | .child id :: rest, pending, slots => do
    let before ← Value.flush? pending
    let (p, slots) ← need (slots.take? id)
    let c ← need a.cells[id]?
    let (after, slots) ← operands? a rest [] slots
    pure (before ++ .operand ⟨p, c.outerSpan⟩ :: after, slots)

/-- The value of the node `id`, whose children are resolved. -/
def resolveNode? (a : Arena) (id : Nat) (slots : Slots) : Guarded (Polynomial × Slots) := do
  let c ← need a.cells[id]?
  if c.children.isEmpty then
    let ts ← need (a.significantTokens? id)
    let p ← Summands.read? (Item.ofTokens ts)
    pure (p.reduced, slots)
  else
    let segments ← need (a.segments? id)
    let (values, slots) ← a.operands? segments [] slots
    let p ← safe (Operations.workOut values)
    pure (p, slots)

/-- Resolves the node `id`, looks up its text for the log, and keeps the value. -/
def step? (a : Arena) (slots : Slots) (id : Nat) : Guarded Slots := do
  let (p, slots) ← a.resolveNode? id slots
  let _ ← need (a.text? id)
  need (slots.put? id p)

/-- The value of the whole text. -/
def resolve? (a : Arena) : Guarded Polynomial := do
  let order ← need a.postOrder?
  let slots ← order.foldlM a.step? (List.replicate a.cells.length none)
  let root ← need slots[0]?
  pure (root.getD .zero)

end Arena

/-! ## Operands -/

/-- The token is neither blank nor an operator. -/
def Token.IsOfTerm (t : Token) : Prop := t.isBlank = false ∧ t.lexeme.isOperator = false

namespace Item

theorem values_cons (item : Item (Operand Value)) (items : List (Item (Operand Value))) :
    values (item :: items) = item.mapM Value.ofOperand >>= fun v =>
      values items >>= fun vs => .ok (v :: vs) := List.mapM_cons

theorem values_append (items others : List (Item (Operand Value))) :
    values (items ++ others) = values items >>= fun vs =>
      values others >>= fun ws => .ok (vs ++ ws) :=
  List.mapM_append

section

variable {ν : Type} {t : Token} {ts : List Token} {items : List (Item (Operand ν))}

/-- A token that is neither blank nor an operator belongs to the run behind it, if there is one. -/
theorem push_of_isOfTerm (h : t.IsOfTerm) (free : ∀ item ∈ items.head?, item.isRun = false) :
    push t items = .operand (.run ⟨t, []⟩) :: items ∧
      ∀ r : Run, push t (.operand (.run r) :: items) = .operand (.run ⟨t, r.tokens⟩) :: items := by
  obtain ⟨l, i⟩ := t
  obtain ⟨nonblank, unsigned⟩ := h
  cases l with
  | blanks cs => cases nonblank
  | operator op => cases unsigned
  | _ =>
    refine ⟨?_, fun _ => rfl⟩
    match items with
    | [] | .operator _ _ :: _ | .operand (.value _) :: _ => rfl
    | .operand (.run r) :: _ => cases free _ rfl

/-- Tokens that are neither blank nor operators are one operand, if no run comes behind them. -/
theorem foldr_push_ofTerm (h : ∀ u ∈ t :: ts, u.IsOfTerm)
    (free : ∀ item ∈ items.head?, item.isRun = false) :
    (t :: ts).foldr push items = .operand (.run ⟨t, ts⟩) :: items := by
  induction ts generalizing t with
  | nil => exact (push_of_isOfTerm (h t List.mem_cons_self) free).1
  | cons u us ih =>
    obtain ⟨first, others⟩ := List.forall_mem_cons.1 h
    rw [List.foldr_cons, ih others]
    exact (push_of_isOfTerm first free).2 _

end

end Item

/-- Tokens of a term in front of items that start with no run are a run of their own. -/
theorem foldr_push {pending : List Token} (ofTerm : ∀ t ∈ pending, t.IsOfTerm)
    {items : List (Item (Operand Value))} (free : ∀ item ∈ items.head?, item.isRun = false) :
    pending.foldr Item.push items = Outline.runOf pending ++ items := by
  cases pending with
  | nil => rfl
  | cons t ts => exact Item.foldr_push_ofTerm ofTerm free

theorem Value.flush?_eq (pending : List Token) :
    flush? pending = safe (Item.values (Outline.runOf pending)) := by
  cases pending with
  | nil => rfl
  | cons t ts =>
    have value : ofOperand (.run ⟨t, ts⟩) =
        Term.ofTokens (t :: ts) >>= fun term => .ok ⟨.ofTerm term, Token.cover t ts⟩ := rfl
    rw [flush?, Term.ofTokens?_eq, Outline.runOf, Item.values_cons, Item.mapM, value]
    cases Term.ofTokens (t :: ts) <;> rfl

namespace Arena

variable {a : Arena} {i id depth : Nat} {o : Outline} {slots : Slots}
  {items : List (Item (Operand Value))} {pending : List Token}

theorem operands?_operator (op : Operator) (j : Nat) (segments : List Segment) :
    a.operands? (.token ⟨.operator op, j⟩ :: segments) pending slots =
      Value.flush? pending >>= fun before => a.operands? segments [] slots >>= fun r =>
        pure (before ++ .operator op (Token.span ⟨.operator op, j⟩) :: r.1, r.2) := rfl

theorem operands?_ofTerm {t : Token} (unsigned : t.lexeme.isOperator = false)
    (segments : List Segment) : a.operands? (.token t :: segments) pending slots =
      a.operands? segments (pending ++ [t]) slots := by
  obtain ⟨l, j⟩ := t
  cases l with
  | operator op => cases unsigned
  | _ => rfl

theorem operands?_child {k : Nat} {p : Polynomial} {c : Cell} (filled : slots[k]? = some (some p))
    (cell : a.cells[k]? = some c) (segments : List Segment) :
    a.operands? (.child k :: segments) pending slots =
      Value.flush? pending >>= fun before => a.operands? segments [] (slots.set k none) >>= fun r =>
        pure (before ++ .operand ⟨p, c.outerSpan⟩ :: r.1, r.2) := by
  rw [operands?, Slots.take?, filled, cell]
  rfl

/-- The tokens that wait come before an operator or the value of a child. -/
theorem flush?_bind {item : Item (Operand Value)} {v : Item Value} (free : item.isRun = false)
    (value : item.mapM Value.ofOperand = .ok v) (ofTerm : ∀ t ∈ pending, t.IsOfTerm) :
    (Value.flush? pending >>= fun before =>
      safe (Item.values items >>= fun values => .ok (values, slots)) >>= fun r =>
        pure (before ++ v :: r.1, r.2)) =
      safe (Item.values (pending.foldr Item.push (item :: items)) >>= fun values =>
        .ok (values, slots)) := by
  rw [Value.flush?_eq, foldr_push ofTerm (by simpa using free), Item.values_append,
    Item.values_cons, value]
  cases Item.values (Outline.runOf pending) with
  | error e => rfl
  | ok before => cases Item.values items <;> rfl

/-- The operands of an outline are its items, each with its value, and the slots of its groups that
are not nested are emptied. -/
theorem operands?_eq (h : a.Holds i id depth o) (filled : o.Filled slots id)
    (itemsOf : o.itemsOf = .ok items) (ofTerm : ∀ t ∈ pending, t.IsOfTerm) :
    a.operands? (o.segments id) pending slots =
      safe (Item.values (pending.foldr Item.push items) >>= fun values =>
        .ok (values, slots.clear (o.groupIds id))) := by
  induction o generalizing i id slots items pending with
  | nil =>
    cases itemsOf
    rw [foldr_push ofTerm (by simp), List.append_nil, Outline.segments, operands?, Value.flush?_eq]
    cases Item.values (Outline.runOf pending) <;> rfl
  | token t rest ih =>
    rw [Outline.itemsOf_token] at itemsOf
    obtain ⟨js, eq, itemsOf⟩ := exists_ok_of_bind itemsOf
    cases itemsOf
    -- A blank is skipped, an operator ends a run, and any other token waits with those before it.
    rcases Outline.push_cases t js with ⟨blank, pushed⟩ | ⟨nonblank, pushes⟩
    · rw [pushed, Outline.segments, if_pos blank, ih h.token filled eq ofTerm, Outline.groupIds]
    rw [Outline.segments, if_neg (by simp [nonblank])]
    rcases pushes with ⟨op, j, rfl, pushed⟩ | ⟨unsigned, -⟩
    · rw [operands?_operator, ih h.token filled eq (by simp), pushed]
      exact flush?_bind rfl rfl ofTerm
    · have ofTerm' : ∀ u ∈ pending ++ [t], u.IsOfTerm :=
        List.forall_mem_append.2 ⟨ofTerm, List.forall_mem_singleton.2 ⟨nonblank, unsigned⟩⟩
      rw [operands?_ofTerm unsigned, ih h.token filled eq ofTerm', List.foldr_append]
      rfl
  | group opening body closing rest _ ih =>
    rw [Outline.itemsOf_group] at itemsOf
    obtain ⟨p, value, itemsOf⟩ := exists_ok_of_bind itemsOf
    obtain ⟨js, eq, itemsOf⟩ := exists_ok_of_bind itemsOf
    cases itemsOf
    -- The value of the group is taken from its slot.
    obtain ⟨⟨p', value', taken⟩, filled⟩ := filled
    obtain rfl : p = p' := Except.ok.inj (value.symm.trans value')
    have filled' : rest.Filled (slots.set id none) (id + 1 + body.groupCount) :=
      filled.congr fun k le => List.getElem?_set_ne (by omega)
    rw [Outline.segments, operands?_child taken h.cell, ih h.behind filled' eq (by simp)]
    exact flush?_bind rfl rfl ofTerm

/-! ## One node -/

variable {n : Node}

/-- A node whose children have their values in the slots gets its value, and the slots of the
children are emptied. -/
theorem resolveNode?_eq (h : a.IsNode id n) (filled : n.body.Filled slots (id + 1))
    (itemsOf : n.body.itemsOf = .ok items) : a.resolveNode? id slots =
      safe (Outline.valueOf items >>= fun p => .ok (p, slots.clear n.children)) := by
  have runs := Outline.runs?_of_itemsOf (id + 1) itemsOf
  rw [resolveNode?, h.cell, need_some, ok_bind]
  show (if n.children.isEmpty then _ else _) = _
  by_cases leaf : n.body.groupIds (id + 1) = []
  · have value : Outline.valueOf items =
        Summands.read (Item.ofTokens n.body.tokens) >>= fun p => .ok p.reduced := by
      rw [Outline.valueOf, runs, if_pos leaf]
    rw [h.children, leaf, List.isEmpty_nil, if_pos rfl, significantTokens?_eq h, need_some, ok_bind,
      Node.significantTokens, Item.ofTokens_filter, Summands.read?_eq, value]
    cases Summands.read (Item.ofTokens n.body.tokens) <;> rfl
  · have value : Outline.valueOf items = Item.values items >>= Operations.workOut := by
      rw [Outline.valueOf, runs, if_neg leaf]
      rfl
    have nonempty : ¬(n.body.groupIds (id + 1)).isEmpty = true := by rwa [List.isEmpty_iff]
    have none_waits : ∀ t ∈ ([] : List Token), t.IsOfTerm := by simp
    have operands := operands?_eq h.body filled itemsOf none_waits
    rw [h.children, if_neg nonempty, segments?_eq h, need_some, ok_bind, Node.segments, operands,
      List.foldr_nil, value]
    cases Item.values items with
    | error e => rfl
    | ok values =>
      show safe (Operations.workOut values) >>= _ = safe (Operations.workOut values >>= _)
      cases Operations.workOut values <;> rfl

theorem step?_eq (h : a.IsNode id n) (filled : n.body.Filled slots (id + 1))
    (itemsOf : n.body.itemsOf = .ok items) (lt : id < slots.length) : a.step? slots id =
      safe (Outline.valueOf items >>= fun p => .ok ((slots.clear n.children).set id (some p))) := by
  rw [step?, resolveNode?_eq h filled itemsOf, text?_eq h]
  cases Outline.valueOf items with
  | error e => rfl
  | ok p =>
    show need (Slots.put? (slots.clear n.children) id p) = _
    rw [Slots.put?, Outline.length_clear, if_pos lt]
    rfl

/-! ## All nodes -/

/-- The groups of an outline are resolved: those that are not nested have their values in the slots,
and the slots of other nodes are as they were. -/
structure Resolves (slots : Slots) (id : Nat) (o : Outline) (slots' : Slots) : Prop where
  length : slots'.length = slots.length
  filled : o.Filled slots' id
  outside : ∀ k, k < id ∨ id + o.groupCount ≤ k → slots'[k]? = slots[k]?

theorem Resolves.group {opening closing : Token} {body rest : Outline} {slots₁ slots₂ : Slots}
    {p : Polynomial} (inside : Resolves slots (id + 1) body slots₁)
    (value : body.itemsOf >>= Outline.valueOf = .ok p) (lt : id < slots.length)
    (behind : Resolves ((slots₁.clear (body.groupIds (id + 1))).set id (some p))
      (id + 1 + body.groupCount) rest slots₂) :
    Resolves slots id (.group opening body closing rest) slots₂ := by
  refine ⟨?_, ⟨⟨p, value, ?_⟩, behind.filled⟩, fun k outside => ?_⟩
  · rw [behind.length, List.length_set, Outline.length_clear, inside.length]
  · rw [behind.outside id (by omega), List.getElem?_set_self]
    rwa [Outline.length_clear, inside.length]
  · rw [Outline.groupCount] at outside
    rw [behind.outside k (by omega), List.getElem?_set_ne (by omega),
      Outline.getElem?_clear body (by omega), inside.outside k (by omega)]

/-- Going through the groups of an outline in the order in which they close resolves them, or ends
with the error of the first one that has no value. -/
structure Runs (a : Arena) (slots : Slots) (id : Nat) (o : Outline) (slots' : Slots) : Prop where
  run : (o.closingOrder id).foldlM a.step? slots = safe (o.itemsOf >>= fun _ => .ok slots')
  resolves : ∀ items, o.itemsOf = .ok items → Resolves slots id o slots'

/-- After the groups in a node, the node itself gets its value, if it has one. -/
theorem Runs.node {slots₁ : Slots} (inside : Runs a slots (id + 1) o slots₁)
    (isNode : a.IsNode id n) (body : n.body = o) (lt : id < slots.length) :
    (o.closingOrder (id + 1) ++ [id]).foldlM a.step? slots =
      safe (o.itemsOf >>= Outline.valueOf >>= fun p =>
        .ok ((slots₁.clear (o.groupIds (id + 1))).set id (some p))) := by
  obtain rfl := body
  rw [List.foldlM_append, inside.run]
  cases itemsOf : n.body.itemsOf with
  | error e => rfl
  | ok items =>
    have resolved := inside.resolves items itemsOf
    have step := step?_eq isNode resolved.filled itemsOf (by rwa [resolved.length])
    rw [isNode.children] at step
    show List.foldlM _ slots₁ [id] = safe (Outline.valueOf items >>= _)
    rw [List.foldlM_cons, step]
    cases Outline.valueOf items <;> rfl

theorem Runs.token {slots' : Slots} {rest : Outline} (h : Runs a slots id rest slots') (t : Token) :
    Runs a slots id (.token t rest) slots' := by
  refine ⟨?_, fun items eq => ?_⟩
  · rw [Outline.closingOrder, h.run, Outline.itemsOf_token]
    cases rest.itemsOf <;> rfl
  · rw [Outline.itemsOf_token] at eq
    obtain ⟨js, eq, -⟩ := exists_ok_of_bind eq
    obtain ⟨length, filled, outside⟩ := h.resolves js eq
    exact ⟨length, filled, outside⟩

section

variable {opening closing : Token} {body rest : Outline} {slots₁ : Slots}

/-- The run ends at a group that has no value. -/
theorem Runs.group_of_error (inside : Runs a slots (id + 1) body slots₁)
    (isNode : a.IsNode id (Outline.groupNode i id depth opening body closing))
    (lt : id < slots.length) {e : Error} (failed : body.itemsOf >>= Outline.valueOf = .error e)
    (slots' : Slots) : Runs a slots id (.group opening body closing rest) slots' := by
  have node := inside.node isNode rfl lt
  rw [failed] at node
  refine ⟨?_, fun items eq => ?_⟩
  · rw [Outline.closingOrder, List.append_cons, List.foldlM_append, node, Outline.itemsOf_group,
      failed]
    rfl
  · rw [Outline.itemsOf_group, failed] at eq
    cases eq

/-- The run goes on behind a group that has a value. -/
theorem Runs.group (inside : Runs a slots (id + 1) body slots₁)
    (isNode : a.IsNode id (Outline.groupNode i id depth opening body closing))
    (lt : id < slots.length) {p : Polynomial}
    (value : body.itemsOf >>= Outline.valueOf = .ok p) {slots₂ : Slots}
    (behind : Runs a ((slots₁.clear (body.groupIds (id + 1))).set id (some p))
      (id + 1 + body.groupCount) rest slots₂) :
    Runs a slots id (.group opening body closing rest) slots₂ := by
  have node := inside.node isNode rfl lt
  rw [value] at node
  obtain ⟨items, itemsOf, -⟩ := exists_ok_of_bind value
  refine ⟨?_, fun items' eq => ?_⟩
  · rw [Outline.closingOrder, List.append_cons, List.foldlM_append, node, Outline.itemsOf_group,
      value]
    refine behind.run.trans ?_
    show _ = safe ((rest.itemsOf >>= _) >>= _)
    cases rest.itemsOf <;> rfl
  · rw [Outline.itemsOf_group, value] at eq
    obtain ⟨js, eq, -⟩ := exists_ok_of_bind (x := rest.itemsOf) eq
    exact (inside.resolves items itemsOf).group value lt (behind.resolves js eq)

end

/-- The run over the groups of an outline in the arena never gets stuck. -/
theorem exists_runs {text : String} {r : Outline} (h : (ofOutline text r).Holds i id depth o)
    (small : id + o.groupCount ≤ slots.length) :
    ∃ slots', Runs (ofOutline text r) slots id o slots' := by
  induction o generalizing i id depth slots with
  | nil => exact ⟨slots, rfl, fun _ _ => ⟨rfl, trivial, fun _ _ => rfl⟩⟩
  | token t rest ih =>
    obtain ⟨slots', runs⟩ := ih h.token small
    exact ⟨slots', runs.token t⟩
  | group opening body closing rest ihBody ihRest =>
    rw [Outline.groupCount] at small
    have lt : id < slots.length := by omega
    have room : id + 1 + body.groupCount ≤ slots.length := by omega
    obtain ⟨slots₁, inside⟩ := ihBody h.inside room
    cases value : body.itemsOf >>= Outline.valueOf with
    | error e => exact ⟨slots, inside.group_of_error h.isNode lt value slots⟩
    | ok p =>
      obtain ⟨items, itemsOf, -⟩ := exists_ok_of_bind value
      have room' : id + 1 + body.groupCount + rest.groupCount ≤
          ((slots₁.clear (body.groupIds (id + 1))).set id (some p)).length := by
        rw [List.length_set, Outline.length_clear, (inside.resolves items itemsOf).length]
        omega
      obtain ⟨slots₂, behind⟩ := ihRest h.behind room'
      exact ⟨slots₂, inside.group h.isNode lt value behind⟩

/-- Resolving never gets stuck. The value of the arena is that of the outline. -/
theorem resolve?_eq {text : String} (tokens : o.tokens = tokenize text) :
    (ofOutline text o).resolve? = safe (o.itemsOf >>= Outline.valueOf) := by
  have room : 1 + o.groupCount ≤ (List.replicate (o.groupCount + 1) none : Slots).length := by
    rw [List.length_replicate, Nat.add_comm]
  obtain ⟨slots, runs⟩ := exists_runs (holds_ofOutline tokens) room
  have root := runs.node (isNode_root tokens rfl) rfl (by rw [List.length_replicate]; omega)
  rw [resolve?, postOrder?_eq tokens, need_some, ok_bind, length_cells, Outline.postOrder, root]
  cases value : o.itemsOf >>= Outline.valueOf with
  | error e => rfl
  | ok p =>
    obtain ⟨items, itemsOf, -⟩ := exists_ok_of_bind value
    have length := (runs.resolves items itemsOf).length
    show need (List.set _ 0 (some p))[0]? >>= _ = _
    rw [List.getElem?_set_self (by rw [Outline.length_clear, length, List.length_replicate]; omega)]
    rfl

end Arena

end Expansion
