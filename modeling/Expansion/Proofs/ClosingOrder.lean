import Expansion.Proofs.Arena

/-!
# The order of the closing parentheses

Nodes are resolved in post-order, each after the nodes below it.

**Theorem (`inClosingOrder_postOrder`).** This order has every node once. The groups come in the
order of their closing parentheses, and the whole text is last.

**Theorem (`existsUnique_parent`).** Every group is a child of exactly one node. In post-order, the
children of a node come before it (`exists_node_of_postOrder`).
-/

namespace Expansion

/-- How many closing parentheses there are. -/
def closings (ts : List Token) : Nat := ts.countP (·.lexeme = .closing)

theorem closings_cons (t : Token) (ts : List Token) :
    closings (t :: ts) = closings ts + if t.lexeme = .closing then 1 else 0 := by
  rw [closings, closings, List.countP_cons]
  simp

theorem closings_append (ts us : List Token) :
    closings (ts ++ us) = closings ts + closings us := List.countP_append

theorem StandAt.closings_take {ts us : List Token} {i j : Nat} (h : StandAt ts i us)
    (eq : j = i + us.length) : closings (ts.take j) = closings (ts.take i) + closings us := by
  obtain ⟨before, after, rfl, rfl⟩ := h
  rw [eq, ← List.append_assoc, List.take_left' List.length_append, closings_append,
    List.append_assoc, List.take_left]

namespace Outline

variable {index id depth k c : Nat} {n : Node} {o : Outline} {ts : List Token}

theorem closings_tokens (matched : o.Matched) : closings o.tokens = o.groupCount := by
  induction o with
  | nil => rfl
  | token t rest ih =>
    have plain : ¬t.lexeme = .closing := fun closes => matched.1 (.inr closes)
    rw [tokens, closings_cons, if_neg plain, ih matched.2]
    rfl
  | group opening body closing rest ihBody ihRest =>
    obtain ⟨opens, closes, inside, behind⟩ := matched
    have not_closing : ¬opening.lexeme = .closing := by
      rw [opens]
      exact Lexeme.noConfusion
    rw [tokens, closings_cons, if_neg not_closing, closings_append, closings_cons, if_pos closes,
      ihBody inside, ihRest behind, groupCount]
    omega

/-! ## Numbers of groups -/

/-- Every group is once in the order in which they close. -/
theorem closingOrder_perm (id : Nat) (o : Outline) :
    (o.closingOrder id).Perm (List.range' id o.groupCount) := by
  induction o generalizing id with
  | nil => exact .refl _
  | token t rest ih => exact ih id
  | group opening body closing rest ihBody ihRest =>
    have split : List.range' id (body.groupCount + rest.groupCount + 1) =
        id :: (List.range' (id + 1) body.groupCount ++
          List.range' (id + 1 + body.groupCount) rest.groupCount) := by
      rw [List.range'_succ, List.range'_append_1]
    rw [closingOrder, groupCount, split]
    exact List.perm_middle.trans (((ihBody _).append (ihRest _)).cons id)

theorem length_closingOrder (id : Nat) (o : Outline) :
    (o.closingOrder id).length = o.groupCount := by
  rw [(closingOrder_perm id o).length_eq, List.length_range']

theorem groupIds_subset_closingOrder (id : Nat) (o : Outline) :
    o.groupIds id ⊆ o.closingOrder id := by
  induction o generalizing id with
  | nil => exact List.Subset.refl _
  | token t rest ih => exact ih id
  | group opening body closing rest _ ih =>
    refine List.cons_subset.2 ⟨List.mem_append_right _ List.mem_cons_self, fun c hc => ?_⟩
    exact List.mem_append_right _ (List.mem_cons_of_mem _ (ih _ hc))

/-- The groups that are not nested, and the children of groups, are all groups, each once. -/
theorem children_perm (index id depth : Nat) (o : Outline) :
    (o.groupIds id ++ (o.groupNodes index id depth).flatMap Node.children).Perm
      (List.range' id o.groupCount) := by
  induction o generalizing index id depth with
  | nil => exact .refl _
  | token t rest ih => exact ih (index + 1) id depth
  | group opening body closing rest ihBody ihRest =>
    have inside := ihBody (index + 1) (id + 1) (depth + 1)
    have behind := ihRest (index + body.size + 2) (id + 1 + body.groupCount) depth
    have both := inside.append behind
    rw [List.range'_append_1] at both
    rw [groupIds, groupNodes_group, List.flatMap_cons, List.flatMap_append, groupCount,
      List.range'_succ]
    refine List.Perm.cons id (.trans ?_ both)
    show (rest.groupIds _ ++ (body.groupIds _ ++ _)).Perm _
    rw [← List.append_assoc (body.groupIds _)]
    exact List.perm_append_comm_assoc ..

/-! ## Where groups close -/

/-- As a group of tokens that start with number `index`, the node is the `k`-th to close. Its
children are among those that close before it. -/
structure Closes (ts : List Token) (index : Nat) (order : List Nat) (k : Nat) (n : Node) :
    Prop where
  closing : closings (ts.take n.pastLast) = closings (ts.take index) + k
  children : n.children ⊆ order.take k

/-- Inside of the first group, at it, or behind it. -/
theorem getElem?_closingOrder_group {opening closing : Token} {body rest : Outline}
    (h : ((group opening body closing rest).closingOrder id)[k]? = some c) :
    (k < body.groupCount ∧ (body.closingOrder (id + 1))[k]? = some c) ∨
      (k = body.groupCount ∧ c = id) ∨
      ∃ l, k = body.groupCount + 1 + l ∧
        (rest.closingOrder (id + 1 + body.groupCount))[l]? = some c := by
  have length := length_closingOrder (id + 1) body
  rw [closingOrder] at h
  rcases Nat.lt_trichotomy k body.groupCount with lt | rfl | gt
  · rw [List.getElem?_append_left (by omega)] at h
    exact .inl ⟨lt, h⟩
  · rw [List.getElem?_append_right (by omega), length, Nat.sub_self] at h
    cases h
    exact .inr (.inl ⟨rfl, rfl⟩)
  · obtain ⟨l, rfl⟩ := Nat.exists_eq_add_of_le (show body.groupCount + 1 ≤ k from gt)
    have place : body.groupCount + 1 + l - body.groupCount = l + 1 := by omega
    rw [List.getElem?_append_right (by omega), length, place, List.getElem?_cons_succ] at h
    exact .inr (.inr ⟨l, rfl, h⟩)

/-- The groups close in the order that says so. -/
theorem exists_closes (depth : Nat) (matched : o.Matched) (stands : StandAt ts index o.tokens)
    (h : (o.closingOrder id)[k]? = some c) : ∃ l n, c = id + l ∧
      (o.groupNodes index id depth)[l]? = some n ∧ Closes ts index (o.closingOrder id) k n := by
  induction o generalizing index id depth k with
  | nil => cases h
  | token t rest ih =>
    obtain ⟨l, n, rfl, found, closes⟩ := ih depth matched.2 stands.tail h
    have plain : ¬t.lexeme = .closing := fun closes => matched.1 (.inr closes)
    have split : StandAt ts index ([t] ++ rest.tokens) := stands
    have upto : closings (ts.take (index + 1)) = _ := split.left.closings_take rfl
    rw [closings_cons, if_neg plain] at upto
    exact ⟨l, n, rfl, found, closes.closing.trans (congrArg (· + k) upto), closes.children⟩
  | group opening body closing rest ihBody ihRest =>
    obtain ⟨opens, closes, body_matched, rest_matched⟩ := matched
    obtain ⟨-, at_body, at_closing, at_rest⟩ := Arena.standAt_group stands
    have split : StandAt ts index ([opening] ++ (body.tokens ++ closing :: rest.tokens)) := stands
    have length := length_closingOrder (id + 1) body
    -- How many parentheses are closed before the inside, at its end and behind the group.
    have upto_body : closings (ts.take (index + 1)) = closings (ts.take index) := by
      rw [split.left.closings_take (j := index + 1) rfl, closings_cons, opens]
      rfl
    have upto_closing : closings (ts.take (index + 1 + body.size)) =
        closings (ts.take index) + body.groupCount := by
      rw [at_body.closings_take (by rw [length_tokens]), upto_body, closings_tokens body_matched]
    have upto_rest : closings (ts.take (index + 1 + body.size + 1)) =
        closings (ts.take index) + body.groupCount + 1 := by
      rw [List.take_add_one, at_closing, Option.toList_some, closings_append, upto_closing,
        closings_cons, if_pos closes]
      rfl
    rcases getElem?_closingOrder_group h with ⟨lt, h'⟩ | ⟨rfl, rfl⟩ | ⟨m, rfl, h'⟩
    · -- In the group.
      obtain ⟨l, n, rfl, found, inside⟩ := ihBody (depth + 1) body_matched at_body h'
      refine ⟨l + 1, n, by omega, getElem?_groupNodes_group.2 (.inr (.inl ⟨l, rfl, found⟩)),
        by rw [inside.closing, upto_body], ?_⟩
      rw [closingOrder, List.take_append_of_le_length (by omega)]
      exact inside.children
    · -- The group itself: all groups in it are closed before.
      refine ⟨0, _, rfl, rfl, upto_closing, ?_⟩
      rw [closingOrder, ← length, List.take_left]
      exact groupIds_subset_closingOrder (c + 1) body
    · -- Behind the group.
      have next : index + 1 + body.size + 1 = index + body.size + 2 := by omega
      rw [next] at at_rest upto_rest
      obtain ⟨l, n, rfl, found, behind⟩ := ihRest depth rest_matched at_rest h'
      refine ⟨body.groupCount + l + 1, n, by omega,
        getElem?_groupNodes_group.2 (.inr (.inr ⟨l, rfl, found⟩)), ?_, fun c hc => ?_⟩
      · rw [behind.closing, upto_rest]
        omega
      · have place : body.groupCount + 1 + m - body.groupCount = m + 1 := by omega
        rw [closingOrder, List.take_append, length, place, List.take_succ_cons]
        exact List.mem_append_right _ (List.mem_cons_of_mem _ (behind.children hc))

/-! ## The whole text -/

theorem length_postOrder (o : Outline) : o.postOrder.length = o.nodes.length := by
  rw [postOrder, List.length_append, length_closingOrder, length_nodes]
  rfl

/-- Every node is once in post-order. -/
theorem postOrder_perm (o : Outline) : o.postOrder.Perm (List.range o.nodes.length) := by
  rw [length_nodes, nodeCount, List.range_eq_range', List.range'_succ]
  exact (List.perm_append_singleton ..).trans ((closingOrder_perm 1 o).cons 0)

theorem nodup_postOrder (o : Outline) : o.postOrder.Nodup :=
  (postOrder_perm o).nodup_iff.2 List.nodup_range

/-- In post-order there are first the groups as they close, and then the whole text. -/
theorem exists_node_of_postOrder (matched : o.Matched) (h : o.postOrder[k]? = some c) :
    ∃ n, o.nodes[c]? = some n ∧ n.children ⊆ o.postOrder.take k ∧
      (c ≠ 0 → closings (o.tokens.take n.pastLast) = k) := by
  have length := length_closingOrder 1 o
  rw [postOrder] at h
  by_cases lt : k < o.groupCount
  · rw [List.getElem?_append_left (by omega)] at h
    obtain ⟨l, n, rfl, found, closes⟩ := exists_closes 1 matched (standAt_self _) h
    refine ⟨n, by rwa [Nat.add_comm], ?_, fun _ => ?_⟩
    · rw [postOrder, List.take_append_of_le_length (by omega)]
      exact closes.children
    · rw [closes.closing, List.take_zero]
      exact Nat.zero_add k
  · have last : k = o.groupCount := by
      have := (List.getElem?_eq_some_iff.1 h).1
      rw [List.length_append, length, List.length_singleton] at this
      omega
    subst last
    rw [← length, List.getElem?_concat_length] at h
    cases h
    refine ⟨_, rfl, ?_, fun group => absurd rfl group⟩
    rw [postOrder, ← length, List.take_left]
    exact groupIds_subset_closingOrder 1 o

/-- Every node of the text comes once. As many parentheses are closed before that of a group as there
are groups before it, and the whole text comes last. -/
structure InClosingOrder (text : String) (o : Outline) (order : List Nat) : Prop where
  perm : order.Perm (List.range o.nodes.length)
  last : order.getLast? = some 0
  whole : ∃ n, o.nodes[0]? = some n ∧ n.IsWhole text
  closing : ∀ k id, order[k]? = some id → id ≠ 0 → ∃ n i j t u, o.nodes[id]? = some n ∧
    n.IsGroup (tokenize text) i j t u ∧ closings ((tokenize text).take j) = k

/-- Post-order is the order in which the groups close. -/
theorem inClosingOrder_postOrder {text : String} (matched : o.Matched)
    (tokens : o.tokens = tokenize text) : InClosingOrder text o o.postOrder where
  perm := postOrder_perm o
  last := List.getLast?_concat
  whole := ⟨_, rfl, isWhole_root tokens rfl⟩
  closing k id h group := by
    obtain ⟨n, found, -, closing⟩ := exists_node_of_postOrder matched h
    obtain ⟨l, rfl⟩ := Nat.exists_eq_succ_of_ne_zero group
    obtain ⟨-, i, j, t, u, isGroup, -⟩ := exists_isGroup matched (Separate.refl o.tokens) found
    have closing := closing group
    rw [tokens] at isGroup closing
    rw [isGroup.pastLast] at closing
    exact ⟨n, i, j, t, u, found, isGroup, closing⟩

/-- The children of all nodes are all groups, each once. -/
theorem children_nodes_perm (o : Outline) :
    (o.nodes.flatMap Node.children).Perm (List.range' 1 o.groupCount) := children_perm 0 1 1 o

/-- No two nodes have a child in common. -/
theorem parent_unique {k' : Nat} {n' : Node} (h : o.nodes[k]? = some n)
    (h' : o.nodes[k']? = some n') (hc : c ∈ n.children) (hc' : c ∈ n'.children) : k = k' := by
  have nodup := (children_nodes_perm o).nodup_iff.2 List.nodup_range'
  have apart := List.pairwise_iff_getElem.1 (List.nodup_flatMap.1 nodup).2
  obtain ⟨lt, rfl⟩ := List.getElem?_eq_some_iff.1 h
  obtain ⟨lt', rfl⟩ := List.getElem?_eq_some_iff.1 h'
  rcases Nat.lt_trichotomy k k' with less | eq | greater
  · exact absurd hc' (apart k k' lt lt' less hc)
  · exact eq
  · exact absurd hc (apart k' k lt' lt greater hc')

/-- Every group is a child of exactly one node. -/
theorem existsUnique_parent (group : c ≠ 0) (lt : c < o.nodes.length) :
    ∃! k : Nat, ∃ n, o.nodes[k]? = some n ∧ c ∈ n.children := by
  have mem : c ∈ o.nodes.flatMap Node.children := by
    rw [length_nodes, nodeCount] at lt
    exact (children_nodes_perm o).mem_iff.2 (List.mem_range'_1.2 (by omega))
  obtain ⟨n, hn, hc⟩ := List.mem_flatMap.1 mem
  obtain ⟨k, found⟩ := List.mem_iff_getElem?.1 hn
  refine ⟨k, ⟨n, found, hc⟩, ?_⟩
  rintro k' ⟨n', found', hc'⟩
  exact parent_unique found' found hc' hc

end Outline

end Expansion
