import Expansion.Proofs.Groups
import Expansion.Proofs.SlotStates

/-!
# The order of the log

**Theorem (`log_in_closingOrder`).** The nodes of a text are resolved in the order in which their
groups close. Each value is in its slot when the parent takes it. The log has a record for each node,
in this order, with the inside of the group and the polynomial that the inside alone is parsed as.
If a node cannot be resolved, the records are those of the nodes before it.

The inside of a node and the same text alone have the same value, or the same error at another
place (`value_eq`). So what is shown of the values of nodes (`Logs`, `Stops`) says it of texts.
-/

namespace Expansion

/-! ## Records in a row -/

namespace Logged

variable {α β : Type} {x : Logged α} {f : α → Logged β}

theorem log_bind_of_ok {a : α} (h : x.outcome = .ok a) : (x >>= f).log = x.log ++ (f a).log := by
  obtain ⟨log, outcome⟩ := x
  obtain rfl := h
  rfl

theorem log_bind_of_error {e : Error} (h : x.outcome = .error e) : (x >>= f).log = x.log := by
  obtain ⟨log, outcome⟩ := x
  obtain rfl := h
  rfl

end Logged

/-- There is a record for each of the nodes, in the same order, with its value. -/
abbrev Logs (ns : List Node) (ids : List Nat) (rs : List Record) : Prop :=
  List.Forall₂ (fun id r => ∃ n p, ns[id]? = some n ∧ n.value = .ok p ∧
    r = .resolvedNode n.body p) ids rs

/-- One of the nodes ends with the error instead of a value, and there are records for those before
it. -/
inductive Stops (ns : List Node) (ids : List Nat) (rs : List Record) (e : Error) : Prop
  | intro {before after : List Nat} {id : Nat} {n : Node} : ids = before ++ id :: after →
      Logs ns before rs → ns[id]? = some n → n.value = .error e → Stops ns ids rs e

variable {ns : List Node} {ids ids' : List Nat} {rs rs' : List Record} {e : Error}

theorem Stops.append (h : Stops ns ids rs e) (ids' : List Nat) : Stops ns (ids ++ ids') rs e := by
  obtain ⟨rfl, logs, found, value⟩ := h
  exact ⟨by rw [List.append_assoc]; rfl, logs, found, value⟩

theorem Logs.stops (h : Logs ns ids rs) (h' : Stops ns ids' rs' e) :
    Stops ns (ids ++ ids') (rs ++ rs') e := by
  obtain ⟨rfl, logs, found, value⟩ := h'
  exact ⟨(List.append_assoc ..).symm, List.rel_append h logs, found, value⟩

/-- The computation logs the nodes one after the other, up to the first that has no value, and ends
with a result or with the error of that node. -/
def Follows {α : Type} (ns : List Node) (ids : List Nat) (x : Logged α) : Prop :=
  (∃ a, x.outcome = .ok a ∧ Logs ns ids x.log) ∨ ∃ e, x.outcome = .error e ∧ Stops ns ids x.log e

section

variable {α β : Type} {x : Logged α} {f : α → Logged β}

theorem follows_pure (a : α) : Follows ns [] (pure a) := .inl ⟨a, rfl, .nil⟩

theorem Follows.bind (hx : Follows ns ids x)
    (hf : ∀ a, x.outcome = .ok a → Follows ns ids' (f a)) : Follows ns (ids ++ ids') (x >>= f) := by
  rcases hx with ⟨a, eq, logs⟩ | ⟨e, eq, stops⟩
  · rcases hf a eq with ⟨b, eq', logs'⟩ | ⟨e, eq', stops⟩
    · refine .inl ⟨b, by rw [Logged.outcome_bind, eq]; exact eq', ?_⟩
      rw [Logged.log_bind_of_ok eq]
      exact List.rel_append logs logs'
    · refine .inr ⟨e, by rw [Logged.outcome_bind, eq]; exact eq', ?_⟩
      rw [Logged.log_bind_of_ok eq]
      exact logs.stops stops
  · refine .inr ⟨e, by rw [Logged.outcome_bind, eq]; rfl, ?_⟩
    rw [Logged.log_bind_of_error eq]
    exact stops.append ids'

/-- The value of a node is logged before what follows. -/
theorem follows_node {id : Nat} {n : Node} {value : Except Error Polynomial}
    {k : Polynomial → Logged α} (found : ns[id]? = some n) (eq : n.value = value)
    (h : ∀ p, Follows ns ids (k p)) : Follows ns (id :: ids)
      (Logged.ofExcept value >>= fun p => Logged.write (.resolvedNode n.body p) >>= fun _ => k p) := by
  cases value with
  | error e => exact .inr ⟨e, rfl, rfl, .nil, found, eq⟩
  | ok p =>
    have one : Follows ns [id] (Logged.write (.resolvedNode n.body p)) :=
      .inl ⟨(), rfl, .cons ⟨n, p, found, eq, rfl⟩ .nil⟩
    exact one.bind fun _ _ => h p

end

namespace Outline

variable {index id depth : Nat} {o : Outline}

/-- The groups are logged as they close. -/
theorem follows_items (numbered : o.NumberedIn ns index id depth) :
    Follows ns (o.closingOrder id) o.items := by
  induction o generalizing index id depth with
  | nil => exact follows_pure _
  | token t rest ih =>
    have behind := (ih numbered).bind fun js _ => follows_pure (Item.push t js)
    rwa [List.append_nil] at behind
  | group opening body closing rest ihBody ihRest =>
    refine (ihBody numbered.inside).bind fun inner eq => ?_
    have value : (groupNode index id depth opening body closing).value = valueOf inner := by
      show body.items.outcome >>= valueOf = _
      rw [eq]
      rfl
    refine follows_node numbered.first value fun p => ?_
    have behind := (ihRest numbered.behind).bind fun js _ => follows_pure
      (Item.operand (Operand.value ⟨p, opening.span.through closing.span⟩) :: js)
    rwa [List.append_nil] at behind

/-- The nodes are logged in post-order. -/
theorem follows_resolve (o : Outline) : Follows o.nodes o.postOrder o.resolve := by
  obtain ⟨root, found, body⟩ : ∃ n, o.nodes[0]? = some n ∧ n.body = o := ⟨_, rfl, rfl⟩
  refine (follows_items (numberedIn_nodes o)).bind fun js eq => ?_
  have value : root.value = valueOf js := by
    rw [Node.value, body, itemsOf, eq]
    rfl
  have last := follows_node found value fun p => follows_pure p
  rwa [body] at last

/-! ## What a node says alone -/

theorem text_root {text : String} {n : Node} (tokens : o.tokens = tokenize text)
    (found : o.nodes[0]? = some n) : n.body.text = text := by
  cases found
  show String.ofList (Token.charsOf o.tokens) = text
  rw [tokens, charsOf_tokenize, String.ofList_toList]

end Outline

namespace Expression

open Outline Context

variable {d d' k : Nat} {text : String} {o : Outline} {n : Node} {e : Error}

theorem relocate_shift (m : Nat) (e : Error) : e.relocate (.shift m) = e.shift m := by
  cases e <;> rfl

/-- What stands in a group is its text alone, moved to where the group is. -/
theorem body_eq_outlineAt (h : Outline.parse ⟨d⟩ text = .ok o)
    (found : o.nodes[k + 1]? = some n) : n.body = outlineAt n.span.start n.body.text ∧
      n.body.Matched ∧ n.body.defect? d n.depth = none := by
  obtain ⟨rfl, defect⟩ := Outline.parse_eq_ok_iff.1 h
  have inside : n ∈ (ofTokens (tokenize text)).groupNodes 0 1 1 := List.mem_of_getElem? found
  obtain ⟨C, whole, depth, span, -⟩ := exists_context inside
  have matched := matched_ofTokens defect
  rw [whole] at defect matched
  obtain ⟨left, right, -, surrounds, body⟩ := exists_surrounds matched whole
  obtain ⟨-, -, inner⟩ := defect?_of_fill defect
  have start : n.span.start = byteLength left.toList + 1 := by
    rw [span, surrounds.opening]
    rfl
  have level : 0 + C.level + 1 = n.depth := by omega
  rw [level] at inner
  exact ⟨by rwa [start], (matched_fill.1 matched).2, inner⟩

/-- The value of a node is that of its text alone, or there is the error of that text at the place
where it stands. -/
theorem value_eq (h : Outline.parse ⟨d⟩ text = .ok o) (found : o.nodes[k]? = some n) :
    n.value = (Relocation.shift n.span.start).outcome id (valueOfTokens (tokenize n.body.text)) := by
  cases k with
  | zero =>
    obtain ⟨rfl, -⟩ := Outline.parse_eq_ok_iff.1 h
    have body := text_root (tokens_ofTokens (tokenize text)) found
    rw [body, valueOfTokens]
    cases found
    show (ofTokens (tokenize text)).itemsOf >>= valueOf = Relocation.outcome (.shift 0) id _
    cases (ofTokens (tokenize text)).itemsOf >>= valueOf with
    | error e => rw [Relocation.outcome_error, relocate_shift, Error.shift_zero]
    | ok p => rfl
  | succ k =>
    obtain ⟨body, matched, -⟩ := body_eq_outlineAt h found
    rw [body] at matched
    have alone := value_relocate ((matched_relocate _).1 matched) (carries_shift n.span.start _)
    rw [Node.value, valueOfTokens, ← alone]
    exact congrArg (fun b => itemsOf b >>= valueOf) body

/-- The text of a node alone can be parsed with the nesting that the node allows, up to its value. -/
theorem parse_text_of_node (h : Outline.parse ⟨d⟩ text = .ok o) (found : o.nodes[k]? = some n)
    (le : d ≤ d' + n.depth) : (parse ⟨d'⟩ n.body.text).outcome =
      valueOfTokens (tokenize n.body.text) >>= fun p => .ok ⟨p⟩ := by
  have alone : (ofTokens (tokenize n.body.text)).defect? d' 0 = none := by
    cases k with
    | zero =>
      obtain ⟨rfl, defect⟩ := Outline.parse_eq_ok_iff.1 h
      rw [text_root (tokens_ofTokens (tokenize text)) found]
      have level : n.depth = 0 := by
        cases found
        rfl
      rw [level] at le
      exact defect?_eq_none_mono defect (by simpa using le)
    | succ k =>
      obtain ⟨body, -, defect⟩ := body_eq_outlineAt h found
      rw [body] at defect
      exact defect?_eq_none_mono ((defect?_shift _).1 defect) (by omega)
  rw [outcome_parse, alone]

/-- The record says what the node was resolved to: the polynomial that its text alone is parsed as,
also with as many levels less of nesting allowed as the node is deep. -/
inductive Names (d : Nat) (text : String) (o : Outline) (id : Nat) (r : Record) : Prop
  | intro {n : Node} {p : Polynomial} : o.nodes[id]? = some n →
      n.span.Shows text.toList n.body.text.toList → r = .resolvedNode n.body p →
      (∀ d', d ≤ d' + n.depth → (parse ⟨d'⟩ n.body.text).outcome = .ok ⟨p⟩) → Names d text o id r

/-- The node cannot be resolved: its text alone cannot be parsed, and the error is the one of that
text at the place where it stands. -/
inductive Fails (d : Nat) (text : String) (o : Outline) (id : Nat) (e : Error) : Prop
  | intro {n : Node} {e' : Error} : o.nodes[id]? = some n →
      n.span.Shows text.toList n.body.text.toList → e = e'.shift n.span.start →
      (∀ d', d ≤ d' + n.depth → (parse ⟨d'⟩ n.body.text).outcome = .error e') →
      Fails d text o id e

theorem shows_text (h : Outline.parse ⟨d⟩ text = .ok o) (found : o.nodes[k]? = some n) :
    n.span.Shows text.toList n.body.text.toList := by
  obtain ⟨rfl, -⟩ := Outline.parse_eq_ok_iff.1 h
  have shows := (Arena.isNode_of_getElem? (tokens_ofTokens (tokenize text)) found).shows
  rw [Outline.text, String.toList_ofList]
  exact shows

theorem names_of_logs (h : Outline.parse ⟨d⟩ text = .ok o) {ids : List Nat} {rs : List Record}
    (logs : Logs o.nodes ids rs) : List.Forall₂ (Names d text o) ids rs := by
  refine logs.imp ?_
  rintro id r ⟨n, p, found, value, rfl⟩
  rw [value_eq h found, Relocation.outcome_eq_ok_iff] at value
  refine ⟨found, shows_text h found, rfl, fun d' le => ?_⟩
  rw [parse_text_of_node h found le, value]
  rfl

theorem fails_of_value (h : Outline.parse ⟨d⟩ text = .ok o) (found : o.nodes[k]? = some n)
    (value : n.value = .error e) : Fails d text o k e := by
  rw [value_eq h found] at value
  cases alone : valueOfTokens (tokenize n.body.text) with
  | ok p =>
    rw [alone] at value
    cases value
  | error e' =>
    rw [alone] at value
    cases value
    refine ⟨found, shows_text h found, relocate_shift _ _, fun d' le => ?_⟩
    rw [parse_text_of_node h found le, alone]
    rfl

/-! ## The log of a text -/

theorem filter_level_of_logs {ns : List Node} {ids : List Nat} {rs : List Record}
    (logs : Logs ns ids rs) : rs.filter (·.level = .trace) = rs := by
  induction logs with
  | nil => rfl
  | cons first _ ih =>
    obtain ⟨n, p, -, -, rfl⟩ := first
    rw [List.filter_cons_of_pos (by simp [Record.level]), ih]

theorem log_cases (h : Outline.parse ⟨d⟩ text = .ok o) :
    (∃ e rs, (parse ⟨d⟩ text).outcome = .ok e ∧ Logs o.nodes o.postOrder rs ∧
      (parse ⟨d⟩ text).log = rs ++ [.resolved text o.nodeCount e.polynomial]) ∨
    ∃ e, (parse ⟨d⟩ text).outcome = .error e ∧ Stops o.nodes o.postOrder (parse ⟨d⟩ text).log e := by
  have reads : parse ⟨d⟩ text = (o.resolve >>= fun p =>
      Logged.write (.resolved text o.nodeCount p) >>= fun _ => pure ⟨p⟩) := by
    rw [parse, h]
    rfl
  rw [reads]
  rcases follows_resolve o with ⟨p, eq, logs⟩ | ⟨e, eq, stops⟩
  · refine .inl ⟨⟨p⟩, _, ?_, logs, ?_⟩
    · rw [Logged.outcome_bind, eq]
      rfl
    · rw [Logged.log_bind_of_ok eq]
      rfl
  · refine .inr ⟨e, ?_, ?_⟩
    · rw [Logged.outcome_bind, eq]
      rfl
    · rwa [Logged.log_bind_of_error eq]

/-- Nodes are resolved as their groups close, the whole text last, and the values of the children are
in their slots when the parent takes them. The log has what the texts of the nodes are parsed as, in
this order, up to the first that cannot be resolved. -/
theorem log_in_closingOrder (h : Outline.parse ⟨d⟩ text = .ok o) :
    InClosingOrder text o o.postOrder ∧
    (Arena.build? ⟨d⟩ text = Guarded.safe (.ok (Arena.ofOutline text o)) ∧
      (Arena.ofOutline text o).postOrder? = some o.postOrder ∧
      ∀ k ≤ o.nodes.length,
        (∃ slots, (Arena.ofOutline text o).slotsAfter? (o.postOrder.take k) =
            Guarded.safe (.ok slots) ∧ o.Keeps (o.postOrder.take k) slots ∧
          ∀ id n, o.postOrder[k]? = some id → o.nodes[id]? = some n →
            ∀ c ∈ n.children, ∃ p, slots[c]? = some (some p)) ∨
        ∃ e, (Arena.ofOutline text o).slotsAfter? (o.postOrder.take k) =
            Guarded.safe (.error e) ∧ ∃ id ∈ o.postOrder.take k, Fails d text o id e) ∧
    (∀ c, c ≠ 0 → c < o.nodes.length → ∃! id : Nat, ∃ n, o.nodes[id]? = some n ∧
      c ∈ n.children) ∧
    (∀ e, (parse ⟨d⟩ text).outcome = .ok e → List.Forall₂ (Names d text o) o.postOrder
      ((parse ⟨d⟩ text).log.filter (·.level = .trace))) ∧
    ∀ e, (parse ⟨d⟩ text).outcome = .error e → ∃ before id after,
      o.postOrder = before ++ id :: after ∧
      List.Forall₂ (Names d text o) before (parse ⟨d⟩ text).log ∧ Fails d text o id e := by
  obtain ⟨eq, defect⟩ := Outline.parse_eq_ok_iff.1 h
  have tokens : o.tokens = tokenize text := by rw [eq, tokens_ofTokens]
  have matched : o.Matched := by
    rw [eq] at defect ⊢
    exact matched_ofTokens defect
  refine ⟨inClosingOrder_postOrder matched tokens, ⟨?_, Arena.postOrder?_eq tokens, fun k le => ?_⟩,
    fun c group lt => existsUnique_parent group lt, fun e ok => ?_, fun e failed => ?_⟩
  · rw [Arena.build?_eq, h]
    rfl
  · rcases Arena.slotsAfter?_cases matched tokens le with
      ⟨slots, run, keeps⟩ | ⟨e, run, id, hid, n, found, value⟩
    · refine .inl ⟨slots, run, keeps, fun id n at_k found c hc => ?_⟩
      obtain ⟨-, p, -, -, filled⟩ := keeps.child matched at_k found hc
      exact ⟨p, filled⟩
    · exact .inr ⟨e, run, id, hid, fails_of_value h found value⟩
  · rcases log_cases h with ⟨e', rs, ok', logs, log⟩ | ⟨e', failed, -⟩
    · rw [log, List.filter_append, filter_level_of_logs logs,
        List.filter_cons_of_neg (by simp [Record.level]), List.filter_nil, List.append_nil]
      exact names_of_logs h logs
    · cases ok.symm.trans failed
  · rcases log_cases h with ⟨e', rs, ok, -, -⟩ | ⟨e', failed', split, logs, found, value⟩
    · cases failed.symm.trans ok
    · cases failed.symm.trans failed'
      exact ⟨_, _, _, split, names_of_logs h logs, fails_of_value h found value⟩

/-- Two groups in a group and one behind it, and a text whose second group cannot be resolved. -/
theorem log_in_closingOrder_nested :
    (∃ o, Outline.parse ⟨2⟩ "((a)+(b))*(2)" = .ok o ∧ o.postOrder = [2, 3, 1, 4, 0] ∧
      InClosingOrder "((a)+(b))*(2)" o [2, 3, 1, 4, 0] ∧
      List.Forall₂ (Names 2 "((a)+(b))*(2)" o) [2, 3, 1, 4, 0]
        ((parse ⟨2⟩ "((a)+(b))*(2)").log.filter (·.level = .trace))) ∧
    ∃ o, Outline.parse ⟨1⟩ "(a)*(b*)" = .ok o ∧
      (parse ⟨1⟩ "(a)*(b*)").outcome = .error (.missingOperand .mul ⟨6, 7⟩) ∧
      ∃ before id after, o.postOrder = before ++ id :: after ∧
        List.Forall₂ (Names 1 "(a)*(b*)" o) before (parse ⟨1⟩ "(a)*(b*)").log ∧
        Fails 1 "(a)*(b*)" o id (.missingOperand .mul ⟨6, 7⟩) := by
  have nested : Outline.parse ⟨2⟩ "((a)+(b))*(2)" = .ok (ofTokens (tokenize "((a)+(b))*(2)")) := rfl
  have order : (ofTokens (tokenize "((a)+(b))*(2)")).postOrder = [2, 3, 1, 4, 0] := by
    decide +kernel
  have resolved : (parse ⟨2⟩ "((a)+(b))*(2)").outcome =
      .ok ⟨⟨[⟨2, ⟨[('a', 1)]⟩⟩, ⟨2, ⟨[('b', 1)]⟩⟩]⟩⟩ := by cbv
  have waits : Outline.parse ⟨1⟩ "(a)*(b*)" = .ok (ofTokens (tokenize "(a)*(b*)")) := rfl
  have failed : (parse ⟨1⟩ "(a)*(b*)").outcome = .error (.missingOperand .mul ⟨6, 7⟩) := by cbv
  obtain ⟨closing, -, -, names, -⟩ := log_in_closingOrder nested
  obtain ⟨-, -, -, -, stops⟩ := log_in_closingOrder waits
  rw [order] at closing names
  exact ⟨⟨_, nested, order, closing, names _ resolved⟩, _, waits, failed, stops _ failed⟩

end Expression

end Expansion
