import Expansion.Proofs.Arena

/-!
# Walks over the arena

Nodes are looked up in the arena by number, and a node's cell says where its tokens and its children
are. That an outline is *held* by the arena from certain positions on (`Holds`) carries over to the
body of each of its groups and to what follows the group, and all walks are followed by it.

**Theorem (`segments?_eq`).** Walking over the tokens of a node, with a jump over each child, gives
the segments of the node.

**Theorem (`postOrder?_eq`).** Visiting each node after its children gives the nodes in post-order.

**Theorem (`text?_eq`).** The region of a node starts and ends between characters, and shows the
text of what stands inside.
-/

namespace Expansion

open Guarded

namespace Arena

/-! ## What is looked up -/

/-- The tokens of the node `id` that are not blank. -/
def significantTokens? (a : Arena) (id : Nat) : Option (List Token) := do
  let c ← a.cells[id]?
  let ts ← range? a.tokens c.first c.pastLast
  some (ts.filter (!·.isBlank))

/-- The text inside of the node `id`. -/
def text? (a : Arena) (id : Nat) : Option (List Char) := do
  let c ← a.cells[id]?
  c.span.cut? a.text

/-- The next of the children and the position behind it, if it opens at position `i`. -/
def childAt? (a : Arena) (i : Nat) (children : List Nat) : Option (Option (Nat × Nat)) :=
  match children with
  | [] => some none
  | id :: _ => a.cells[id]?.map fun c => if i + 1 = c.first then some (id, c.pastLast + 1) else none

/-- The segments from position `i` up to the position `stop`, with these children among them. Every
step moves forward, so `fuel` only has to bound the number of tokens. -/
def walk (a : Arena) (stop : Nat) : (fuel i : Nat) → List Nat → Option (List Segment)
  | 0, i, _ => if i < stop then none else some []
  | fuel + 1, i, children =>
    if i < stop then do
      match ← a.childAt? i children with
      | some (id, behind) =>
        let segments ← walk a stop fuel behind children.tail
        some (.child id :: segments)
      | none =>
        let t ← a.tokens[i]?
        let segments ← walk a stop fuel (i + 1) children
        some (if t.isBlank then segments else .token t :: segments)
    else some []

/-- The segments of the node `id`. -/
def segments? (a : Arena) (id : Nat) : Option (List Segment) := do
  let c ← a.cells[id]?
  walk a c.pastLast (c.pastLast - c.first) c.first c.children

/-- The node `id` after all nodes below it, of which there are at most `fuel` levels. -/
def visit (a : Arena) : (fuel id : Nat) → Option (List Nat)
  | 0, _ => none
  | fuel + 1, id => do
    let c ← a.cells[id]?
    let below ← c.children.mapM (visit a fuel)
    some (below.flatten ++ [id])

/-- All nodes, each after the nodes below it. -/
def postOrder? (a : Arena) : Option (List Nat) := visit a a.cells.length 0

/-! ## Outlines in the arena -/

/-- The tokens of the outline stand in the arena from position `i` on, and the cells of its groups
from `id` on. -/
structure Holds (a : Arena) (i id depth : Nat) (o : Outline) : Prop where
  tokens : StandAt a.tokens i o.tokens
  cells : StandAt a.cells id ((o.groupNodes i id depth).map Node.cell)

variable {a : Arena} {i j id depth fuel : Nat} {t opening closing : Token} {o body rest : Outline}

namespace Holds

theorem token (h : a.Holds i id depth (.token t rest)) : a.Holds (i + 1) id depth rest :=
  ⟨h.tokens.tail, h.cells⟩

theorem cells_group (h : a.Holds i id depth (.group opening body closing rest)) :
    StandAt a.cells id ((Outline.groupNode i id depth opening body closing).cell ::
      ((body.groupNodes (i + 1) (id + 1) (depth + 1)).map Node.cell ++
        (rest.groupNodes (i + body.size + 2) (id + 1 + body.groupCount) depth).map Node.cell)) := by
  have cells := h.cells
  rwa [Outline.groupNodes_group, List.map_cons, List.map_append] at cells

theorem cell (h : a.Holds i id depth (.group opening body closing rest)) :
    a.cells[id]? = some (Outline.groupNode i id depth opening body closing).cell :=
  h.cells_group.head

theorem inside (h : a.Holds i id depth (.group opening body closing rest)) :
    a.Holds (i + 1) (id + 1) (depth + 1) body :=
  ⟨(standAt_group h.tokens).2.1, h.cells_group.tail.left⟩

theorem behind (h : a.Holds i id depth (.group opening body closing rest)) :
    a.Holds (i + body.size + 2) (id + 1 + body.groupCount) depth rest := by
  obtain ⟨-, -, -, at_rest⟩ := standAt_group h.tokens
  have next : i + 1 + body.size + 1 = i + body.size + 2 := by omega
  rw [next] at at_rest
  exact ⟨at_rest, h.cells_group.tail.right (by rw [List.length_map, Outline.length_groupNodes])⟩

end Holds

theorem length_cells (text : String) (o : Outline) :
    (ofOutline text o).cells.length = o.groupCount + 1 := by
  show (o.nodes.map Node.cell).length = _
  rw [List.length_map, Outline.length_nodes, Outline.nodeCount]

/-- The arena of an outline holds it, behind the cell of the whole text. -/
theorem holds_ofOutline {text : String} (tokens : o.tokens = tokenize text) :
    (ofOutline text o).Holds 0 1 1 o := by
  refine ⟨?_, ?_⟩
  · show StandAt (tokenize text) 0 o.tokens
    rw [tokens]
    exact standAt_self _
  · show StandAt (o.nodes.map Node.cell) (0 + 1) _
    rw [Outline.nodes, List.map_cons]
    exact (standAt_self _).tail

/-! ## Segments -/

/-- No child starts before the groups of what follows. -/
theorem childAt?_eq_none (h : a.Holds j id depth o) (lt : i < j) :
    a.childAt? i (o.groupIds id) = some none := by
  induction o generalizing j with
  | nil => rfl
  | token t rest ih => exact ih h.token (Nat.lt_succ_of_lt lt)
  | group opening body closing rest _ _ =>
    have apart : ¬i + 1 = j + 1 := by omega
    rw [Outline.groupIds, childAt?, h.cell, Option.map_some]
    exact congrArg some (if_neg apart)

theorem childAt?_group (h : a.Holds i id depth (.group opening body closing rest)) :
    a.childAt? i ((Outline.group opening body closing rest).groupIds id) =
      some (some (id, i + body.size + 2)) := by
  rw [Outline.groupIds, childAt?, h.cell, Option.map_some]
  show some (if i + 1 = i + 1 then some (id, i + 1 + body.size + 1) else none) = _
  rw [if_pos rfl]
  congr 3
  omega

theorem walk_token {stop : Nat} {children : List Nat} (lt : i < stop)
    (no_child : a.childAt? i children = some none) (at_i : a.tokens[i]? = some t)
    {segments : List Segment} (behind : walk a stop fuel (i + 1) children = some segments) :
    walk a stop (fuel + 1) i children =
      some (if t.isBlank then segments else .token t :: segments) := by
  rw [walk, if_pos lt, no_child]
  show (a.tokens[i]?.bind fun t => (walk a stop fuel (i + 1) children).bind fun segments => _) = _
  rw [at_i, behind]
  rfl

theorem walk_child {stop k : Nat} {children : List Nat} (lt : i < stop)
    (found : a.childAt? i children = some (some (id, k)))
    {segments : List Segment} (behind : walk a stop fuel k children.tail = some segments) :
    walk a stop (fuel + 1) i children = some (.child id :: segments) := by
  rw [walk, if_pos lt, found]
  show ((walk a stop fuel k children.tail).bind fun segments => _) = _
  rw [behind]
  rfl

/-- The walk over an outline in the arena gives its segments. -/
theorem walk_eq (h : a.Holds i id depth o) (enough : o.size ≤ fuel) :
    walk a (i + o.size) fuel i (o.groupIds id) = some (o.segments id) := by
  induction o generalizing i id fuel with
  | nil => cases fuel <;> simp [walk, Outline.size, Outline.segments]
  | token t rest ih =>
    obtain ⟨fuel, rfl⟩ := Nat.exists_eq_add_of_le' enough
    have behind := ih h.token (Nat.le_add_left rest.size fuel)
    rw [Nat.add_assoc, Nat.add_comm 1] at behind
    have apart := childAt?_eq_none h.token (Nat.lt_succ_self i)
    exact walk_token (by rw [Outline.size]; omega) apart h.tokens.head behind
  | group opening body closing rest _ ih =>
    obtain ⟨fuel, rfl⟩ := Nat.exists_eq_add_of_le' enough
    have enough' : rest.size ≤ fuel + (body.size + rest.size + 1) := by omega
    have behind := ih h.behind enough'
    have stop : i + body.size + 2 + rest.size =
        i + (Outline.group opening body closing rest).size := by
      rw [Outline.size]
      omega
    rw [stop] at behind
    exact walk_child (by rw [Outline.size]; omega) (childAt?_group h) behind

/-! ## Post-order -/

/-- Visiting the groups that are not nested gives all groups in the order in which they close. -/
theorem visit_eq (h : a.Holds i id depth o) (enough : o.groupCount ≤ fuel) :
    ∃ lists, (o.groupIds id).mapM (visit a fuel) = some lists ∧
      lists.flatten = o.closingOrder id := by
  induction o generalizing i id depth fuel with
  | nil => exact ⟨[], rfl, rfl⟩
  | token t rest ih => exact ih h.token enough
  | group opening body closing rest ihBody ihRest =>
    rw [Outline.groupCount] at enough
    obtain ⟨fuel, rfl⟩ : ∃ n, fuel = n + 1 := Nat.exists_eq_add_of_le' (by omega)
    have inside : body.groupCount ≤ fuel := by omega
    have behind : rest.groupCount ≤ fuel + 1 := by omega
    obtain ⟨below, visited, below_eq⟩ := ihBody h.inside inside
    obtain ⟨lists, visited', eq⟩ := ihRest h.behind behind
    have first : visit a (fuel + 1) id = some (body.closingOrder (id + 1) ++ [id]) := by
      rw [visit, h.cell, ← below_eq]
      show ((body.groupIds (id + 1)).mapM (visit a fuel)).bind _ = _
      rw [visited]
      rfl
    refine ⟨(body.closingOrder (id + 1) ++ [id]) :: lists, ?_, ?_⟩
    · rw [Outline.groupIds, List.mapM_cons, first, visited']
      rfl
    · rw [List.flatten_cons, eq, Outline.closingOrder, List.append_assoc]
      rfl

theorem postOrder?_eq {text : String} (tokens : o.tokens = tokenize text) :
    (ofOutline text o).postOrder? = some o.postOrder := by
  obtain ⟨below, visited, eq⟩ := visit_eq (holds_ofOutline tokens) le_rfl
  rw [postOrder?, length_cells, visit, Outline.postOrder, ← eq]
  show ((o.groupIds 1).mapM (visit (ofOutline text o) o.groupCount)).bind _ = _
  rw [visited]
  rfl

/-! ## Single nodes -/

/-- The node has the number `id`, and what stands inside of it is in the arena. -/
structure IsNode (a : Arena) (id : Nat) (n : Node) : Prop where
  cell : a.cells[id]? = some n.cell
  body : a.Holds n.first (id + 1) (n.depth + 1) n.body
  pastLast : n.pastLast = n.first + n.body.size
  children : n.children = n.body.groupIds (id + 1)
  shows : n.span.Shows a.text (Token.charsOf n.body.tokens)

/-- The region between two parentheses shows the tokens between them. -/
theorem shows_between {text : String} {ts us vs : List Token} {t u : Token}
    (h : tokenize text = ts ++ t :: (us ++ u :: vs)) :
    Span.Shows ⟨t.stop, u.start⟩ text.toList (Token.charsOf us) := by
  have at_t : tokenize text = ts ++ ([t] ++ (us ++ u :: vs)) := h
  have at_u : tokenize text = (ts ++ t :: us) ++ ([u] ++ vs) := by simp [h]
  have first := span_eq_of_over at_t (over_singleton t)
  have last := span_eq_of_over at_u (over_singleton u)
  refine ⟨Token.charsOf (ts ++ [t]), Token.charsOf (u :: vs), ?_, ?_⟩
  · rw [← charsOf_tokenize, h, ← charsOf_append, ← charsOf_append]
    simp
  · have start : t.stop = _ := congrArg Span.stop first
    have stop : u.start = _ := congrArg Span.start last
    rw [start, stop]
    simp [Token.charsOf, Nat.add_assoc]

variable {text : String} {r : Outline}

theorem isNode_root (tokens : o.tokens = tokenize text) {n : Node} (h : o.nodes[0]? = some n) :
    (ofOutline text o).IsNode 0 n := by
  cases h
  refine ⟨rfl, holds_ofOutline tokens, (Nat.zero_add _).symm, rfl, [], [], ?_, ?_⟩
  · show text.toList = _
    rw [tokens, charsOf_tokenize]
    simp
  · rw [byteLength_nil, Nat.zero_add]

theorem Holds.isNode (h : (ofOutline text r).Holds i id depth (.group opening body closing rest)) :
    (ofOutline text r).IsNode id (Outline.groupNode i id depth opening body closing) := by
  refine ⟨h.cell, h.inside, rfl, rfl, ?_⟩
  obtain ⟨before, after, eq, -⟩ := h.tokens
  have whole : tokenize text =
      before ++ opening :: (body.tokens ++ closing :: (rest.tokens ++ after)) := by
    refine eq.trans ?_
    simp [Outline.tokens]
  exact shows_between whole

variable {n : Node}

/-- The tokens of a node are in range. -/
theorem significantTokens?_eq (h : a.IsNode id n) :
    a.significantTokens? id = some n.significantTokens := by
  rw [significantTokens?, h.cell]
  show (range? a.tokens n.first n.pastLast).bind _ = _
  rw [h.body.tokens.range? (by rw [h.pastLast, Outline.length_tokens])]
  rfl

/-- The region of a node shows the text of what stands inside. -/
theorem text?_eq (h : a.IsNode id n) : a.text? id = some (Token.charsOf n.body.tokens) := by
  rw [text?, h.cell]
  exact Span.cut?_eq_some_iff.2 h.shows

/-- The walk over a node never gets stuck. -/
theorem segments?_eq (h : a.IsNode id n) : a.segments? id = some (n.segments id) := by
  rw [segments?, h.cell]
  show walk a n.pastLast (n.pastLast - n.first) n.first n.children = _
  rw [h.pastLast, h.children, Nat.add_sub_cancel_left, walk_eq h.body le_rfl]
  rfl

end Arena

end Expansion
