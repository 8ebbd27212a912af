import Expansion.Proofs.ClosingOrder
import Expansion.Proofs.Slots

/-!
# The slots after each step

**Theorem (`slotsAfter?_cases`).** Resolving never gets stuck at any node. After some of the nodes are
resolved, in post-order, the slots with a value are those of the nodes that are resolved while their
parents are not. So a value is taken once, when the parent is resolved, and it is there.

A step is looked at with what the slots are known to keep before it (`Keeps`): the children of the
node come before it in post-order, and none of them has another parent.
-/

namespace Expansion

open Guarded

/-- The value of what stands inside of a node. -/
def Node.value (n : Node) : Except Error Polynomial := n.body.itemsOf >>= Outline.valueOf

namespace Slots

variable {slots : Slots} {ids : List Nat} {c : Nat}

theorem getElem?_clear_of_notMem (h : c ∉ ids) : (slots.clear ids)[c]? = slots[c]? := by
  induction ids generalizing slots with
  | nil => rfl
  | cons id ids ih =>
    obtain ⟨ne, others⟩ := not_or.1 (mt List.mem_cons.2 h)
    exact (ih others).trans (List.getElem?_set_ne (Ne.symm ne))

/-- Nothing is left in a slot that is emptied. -/
theorem getElem?_clear_ne (h : c ∈ ids) (p : Polynomial) :
    (slots.clear ids)[c]? ≠ some (some p) := by
  induction ids generalizing slots with
  | nil => cases h
  | cons id ids ih =>
    by_cases later : c ∈ ids
    · exact ih later
    · obtain rfl : c = id := (List.mem_cons.1 h).resolve_right later
      show (Slots.clear ids (slots.set c none))[c]? ≠ _
      rw [getElem?_clear_of_notMem later, List.getElem?_set_self']
      cases slots[c]? <;> simp

end Slots

namespace Outline

variable {index id depth : Nat} {o : Outline} {slots : Slots}

/-- If the groups that are not nested have their values in the slots, these are filled. -/
theorem filled_of_children {ns : List Node} (numbered : o.NumberedIn ns index id depth)
    (h : ∀ c ∈ o.groupIds id, ∃ m p, ns[c]? = some m ∧ m.value = .ok p ∧
      slots[c]? = some (some p)) : o.Filled slots id := by
  induction o generalizing index id with
  | nil => trivial
  | token t rest ih => exact ih numbered h
  | group opening body closing rest _ ih =>
    obtain ⟨first, others⟩ := List.forall_mem_cons.1 h
    obtain ⟨m, p, found, value, filled⟩ := first
    cases found.symm.trans numbered.first
    exact ⟨⟨p, value, filled⟩, ih numbered.behind others⟩

theorem Filled.exists_itemsOf (h : o.Filled slots id) : ∃ items, o.itemsOf = .ok items := by
  induction o generalizing id with
  | nil => exact ⟨[], rfl⟩
  | token t rest ih =>
    obtain ⟨items, eq⟩ := ih h
    exact ⟨_, by rw [itemsOf_token, eq]; rfl⟩
  | group opening body closing rest _ ih =>
    obtain ⟨⟨p, value, -⟩, behind⟩ := h
    obtain ⟨items, eq⟩ := ih behind
    exact ⟨_, by rw [itemsOf_group, value, eq]; rfl⟩

/-- The nodes `done` are resolved. The slots that have a value, which is that of their node, are those
of the nodes that are resolved while their parents are not. -/
structure Keeps (o : Outline) (done : List Nat) (slots : Slots) : Prop where
  length : slots.length = o.nodes.length
  resolved : ∀ c ∈ done, ∃ n p, o.nodes[c]? = some n ∧ n.value = .ok p
  filled : ∀ c p, slots[c]? = some (some p) ↔ c ∈ done ∧
    (∀ k ∈ done, ∀ n, o.nodes[k]? = some n → c ∉ n.children) ∧
    ∃ n, o.nodes[c]? = some n ∧ n.value = .ok p

theorem keeps_nil (o : Outline) : Keeps o [] (List.replicate o.nodes.length none) where
  length := List.length_replicate
  resolved _ hc := absurd hc List.not_mem_nil
  filled c p := by
    simp [List.getElem?_replicate]

variable {k c : Nat} {n : Node}

theorem notMem_take_of_getElem? {xs : List Nat} (nodup : xs.Nodup) (h : xs[k]? = some c) :
    c ∉ xs.take k := by
  intro mem
  obtain ⟨j, at_j⟩ := List.mem_iff_getElem?.1 mem
  have lt := (List.getElem?_eq_some_iff.1 at_j).1
  rw [List.length_take] at lt
  rw [List.getElem?_take_of_lt (by omega), ← h] at at_j
  have := (List.getElem?_inj (by omega) nodup).1 at_j
  omega

/-- No parent of a node is resolved before it. -/
theorem notMem_children_of_postOrder (matched : o.Matched) (h : o.postOrder[k]? = some id)
    (hc : c ∈ o.postOrder.take (k + 1)) (found : o.nodes[c]? = some n) : id ∉ n.children := by
  intro child
  obtain ⟨j, at_j⟩ := List.mem_iff_getElem?.1 hc
  have le : j < k + 1 := by
    have := (List.getElem?_eq_some_iff.1 at_j).1
    rw [List.length_take] at this
    omega
  rw [List.getElem?_take_of_lt le] at at_j
  obtain ⟨n', found', before, -⟩ := exists_node_of_postOrder matched at_j
  cases found.symm.trans found'
  exact notMem_take_of_getElem? (nodup_postOrder o) h
    (List.take_subset_take_left _ (Nat.le_of_lt_succ le) (before child))

/-- The children of the next node are resolved, and their values are in the slots. -/
theorem Keeps.child (matched : o.Matched) (h : o.postOrder[k]? = some id)
    (found : o.nodes[id]? = some n) (keeps : o.Keeps (o.postOrder.take k) slots)
    (hc : c ∈ n.children) : ∃ m p, o.nodes[c]? = some m ∧ m.value = .ok p ∧
      slots[c]? = some (some p) := by
  obtain ⟨n', found', before, -⟩ := exists_node_of_postOrder matched h
  cases found.symm.trans found'
  obtain ⟨m, p, found_c, value⟩ := keeps.resolved c (before hc)
  refine ⟨m, p, found_c, value, (keeps.filled c p).2 ⟨before hc, fun k' hk' n' found' hc' => ?_,
    m, found_c, value⟩⟩
  obtain rfl := parent_unique found found' hc hc'
  exact notMem_take_of_getElem? (nodup_postOrder o) h hk'

/-- The next node is resolved: its value is kept, and those of its children are taken. -/
theorem Keeps.next (matched : o.Matched) (h : o.postOrder[k]? = some id)
    (found : o.nodes[id]? = some n) {p : Polynomial} (value : n.value = .ok p)
    (keeps : o.Keeps (o.postOrder.take k) slots) :
    o.Keeps (o.postOrder.take (k + 1)) ((slots.clear n.children).set id (some p)) := by
  have done : o.postOrder.take (k + 1) = o.postOrder.take k ++ [id] := by
    rw [List.take_add_one, h, Option.toList_some]
  have last : id ∈ o.postOrder.take (k + 1) := by simp [done]
  have length : (slots.clear n.children).length = o.nodes.length := by
    rw [length_clear, keeps.length]
  have lt : id < (slots.clear n.children).length := by
    rw [length]
    exact (List.getElem?_eq_some_iff.1 found).1
  refine ⟨by rw [List.length_set, length], fun c hc => ?_, fun c q => ?_⟩
  · rw [done] at hc
    rcases List.mem_append.1 hc with hc | hc
    · exact keeps.resolved c hc
    · obtain rfl := List.mem_singleton.1 hc
      exact ⟨n, p, found, value⟩
  -- The slot of the node itself: no parent of it is resolved.
  by_cases here : c = id
  · subst here
    rw [List.getElem?_set_self lt]
    constructor
    · rintro ⟨⟩
      exact ⟨last, fun k' hk' n' found' => notMem_children_of_postOrder matched h hk' found', n,
        found, value⟩
    · rintro ⟨-, -, n', found', value'⟩
      cases found.symm.trans found'
      cases value.symm.trans value'
      rfl
  rw [List.getElem?_set_ne (Ne.symm here)]
  -- The slot of a child: it is emptied, and its parent is resolved now.
  by_cases child : c ∈ n.children
  · constructor
    · exact fun kept => absurd kept (Slots.getElem?_clear_ne child q)
    · exact fun ⟨_, apart, _⟩ => absurd child (apart id last n found)
  · -- Any other slot: the node is not its parent.
    rw [Slots.getElem?_clear_of_notMem child, keeps.filled, done]
    have mem : c ∈ o.postOrder.take k ++ [id] ↔ c ∈ o.postOrder.take k := by simp [here]
    refine and_congr mem.symm (and_congr_left fun _ => ⟨fun apart k' hk' n' found' => ?_,
      fun apart k' hk' => apart k' (List.mem_append_left _ hk')⟩)
    rcases List.mem_append.1 hk' with hk' | hk'
    · exact apart k' hk' n' found'
    · obtain rfl := List.mem_singleton.1 hk'
      cases found.symm.trans found'
      exact child

end Outline

namespace Arena

variable {text : String} {id k i depth l : Nat} {n : Node} {o r : Outline} {slots : Slots}

/-- All nodes can be looked up. -/
theorem Holds.isNode_of_getElem? (h : (ofOutline text r).Holds i id depth o)
    (found : (o.groupNodes i id depth)[l]? = some n) : (ofOutline text r).IsNode (id + l) n := by
  induction o generalizing i id depth l with
  | nil => cases found
  | token t rest ih => exact ih h.token found
  | group opening body closing rest ihBody ihRest =>
    rcases Outline.getElem?_groupNodes_group.1 found with
      ⟨rfl, rfl⟩ | ⟨l, rfl, found'⟩ | ⟨l, rfl, found'⟩
    · exact h.isNode
    · have place : id + (l + 1) = id + 1 + l := by omega
      rw [place]
      exact ihBody h.inside found'
    · have place : id + (body.groupCount + l + 1) = id + 1 + body.groupCount + l := by omega
      rw [place]
      exact ihRest h.behind found'

theorem isNode_of_getElem? (tokens : o.tokens = tokenize text) (found : o.nodes[id]? = some n) :
    (ofOutline text o).IsNode id n := by
  cases id with
  | zero => exact isNode_root tokens found
  | succ l =>
    rw [Nat.add_comm l 1]
    exact (holds_ofOutline tokens).isNode_of_getElem? found

/-- The next step takes the values of the children, and ends as working out the node does. -/
theorem step?_postOrder (matched : o.Matched) (tokens : o.tokens = tokenize text)
    (h : o.postOrder[k]? = some id) (found : o.nodes[id]? = some n)
    (keeps : o.Keeps (o.postOrder.take k) slots) :
    (ofOutline text o).step? slots id =
      safe (n.value >>= fun p => .ok ((slots.clear n.children).set id (some p))) := by
  have isNode := isNode_of_getElem? tokens found
  obtain ⟨children, -⟩ := Outline.split_nodes found
  have filled : n.body.Filled slots (id + 1) := by
    refine Outline.filled_of_children (Outline.numberedIn_body found) fun c hc =>
      keeps.child matched h found ?_
    rwa [children]
  obtain ⟨items, itemsOf⟩ := filled.exists_itemsOf
  have lt : id < slots.length := by
    rw [keeps.length]
    exact (List.getElem?_eq_some_iff.1 found).1
  rw [step?_eq isNode filled itemsOf lt, Node.value, itemsOf]
  rfl

/-- The slots after the nodes are resolved one after the other. -/
def slotsAfter? (a : Arena) (ids : List Nat) : Guarded Slots :=
  ids.foldlM a.step? (List.replicate a.cells.length none)

theorem slotsAfter?_concat (a : Arena) (ids : List Nat) (id : Nat) :
    a.slotsAfter? (ids ++ [id]) = a.slotsAfter? ids >>= fun slots => a.step? slots id := by
  rw [slotsAfter?, List.foldlM_append]
  exact bind_congr fun slots => bind_pure _

/-- However many nodes are resolved, nothing gets stuck: the slots keep what they should, or one of
the nodes has no value. -/
theorem slotsAfter?_cases (matched : o.Matched) (tokens : o.tokens = tokenize text)
    (le : k ≤ o.nodes.length) :
    (∃ slots, (ofOutline text o).slotsAfter? (o.postOrder.take k) = safe (.ok slots) ∧
      o.Keeps (o.postOrder.take k) slots) ∨
    ∃ e, (ofOutline text o).slotsAfter? (o.postOrder.take k) = safe (.error e) ∧
      ∃ id ∈ o.postOrder.take k, ∃ n, o.nodes[id]? = some n ∧ n.value = .error e := by
  induction k with
  | zero =>
    have length : (ofOutline text o).cells.length = o.nodes.length := List.length_map _
    refine .inl ⟨_, rfl, ?_⟩
    rw [length]
    exact Outline.keeps_nil o
  | succ k ih =>
    obtain ⟨id, h⟩ : ∃ id, o.postOrder[k]? = some id :=
      ⟨_, List.getElem?_eq_getElem (by rw [Outline.length_postOrder]; omega)⟩
    obtain ⟨n, found, -⟩ := Outline.exists_node_of_postOrder matched h
    have done : o.postOrder.take (k + 1) = o.postOrder.take k ++ [id] := by
      rw [List.take_add_one, h, Option.toList_some]
    rcases ih (by omega) with ⟨slots, run, keeps⟩ | ⟨e, run, c, hc, m, found', value⟩
    · have step := step?_postOrder matched tokens h found keeps
      rw [done, slotsAfter?_concat, run, ok_bind, step, ← done]
      cases value : n.value with
      | error e => exact .inr ⟨e, rfl, id, by simp [done], n, found, value⟩
      | ok p => exact .inl ⟨_, rfl, keeps.next matched h found value⟩
    · rw [done, slotsAfter?_concat, run, error_bind]
      exact .inr ⟨e, rfl, c, List.mem_append_left _ hc, m, found', value⟩

end Arena

end Expansion
