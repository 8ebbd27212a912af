import Expansion.Outline.Node
import Expansion.Proofs.Defects

/-!
# Nodes are pairs of parentheses

**Theorem (`nodes_of_parse`).** A text that has an outline has one node for the whole text and one
for each opening parenthesis, in their order. The node of a parenthesis is described by it and its
partner. The children of a node are the groups directly inside, and what stands in a node is what
its pieces say when every group is put back.

Nodes are looked at in the list of all tokens, while an outline only knows its own. That its tokens
are separate from all others (`Separate`) is what carries the induction over outlines.
-/

namespace Expansion

/-! ## What nodes should be -/

/-- How many opening parentheses there are. -/
def openings (ts : List Token) : Nat := ts.countP (·.lexeme = .opening)

namespace Node

/-- The node is the whole text. -/
structure IsWhole (text : String) (n : Node) : Prop where
  first : n.first = 0
  pastLast : n.pastLast = (tokenize text).length
  span : n.span = ⟨0, text.utf8ByteSize⟩
  outerSpan : n.outerSpan = ⟨0, text.utf8ByteSize⟩
  depth : n.depth = 0

/-- The node is the group of the partners `t` and `u`, which are the tokens number `i` and `j`. -/
structure IsGroup (ts : List Token) (i j : Nat) (t u : Token) (n : Node) : Prop where
  partners : Partners ts i j
  opening : ts[i]? = some t
  closing : ts[j]? = some u
  first : n.first = i + 1
  pastLast : n.pastLast = j
  span : n.span = ⟨t.stop, u.start⟩
  outerSpan : n.outerSpan = t.span.through u.span
  depth : n.depth = nesting ts i

/-- The tokens of the first node are among those of the second, with both of its parentheses. -/
def Inside (m n : Node) : Prop := n.first < m.first ∧ m.pastLast < n.pastLast

/-- The first node stands in the second, and no other of the nodes is between them. -/
def DirectlyInside (ns : List Node) (m n : Node) : Prop :=
  m.Inside n ∧ ∀ k ∈ ns, m.Inside k → ¬k.Inside n

/-- What is inside of the node are the tokens that its numbers say, and all parentheses there are in
groups. -/
structure Holds (ts : List Token) (n : Node) : Prop where
  tokens : n.body.tokens = (ts.take n.pastLast).drop n.first
  matched : n.body.Matched

end Node

/-- The tokens are left when every group among the pieces is replaced by its opening parenthesis,
its own pieces treated in the same way, and its closing parenthesis. -/
inductive Expands (ns : List Node) : List Segment → List Token → Prop
  | nil : Expands ns [] []
  | token {t : Token} {segments : List Segment} {ts : List Token} : Expands ns segments ts →
      Expands ns (.token t :: segments) (t :: ts)
  | child {id : Nat} {n : Node} {segments : List Segment} {ts us : List Token} :
      ns[id]? = some n → Expands ns (n.segments id) ts → Expands ns segments us →
      Expands ns (.child id :: segments)
        (⟨.opening, n.outerSpan.start⟩ :: (ts ++ ⟨.closing, n.span.stop⟩ :: us))

theorem Expands.unique {ns : List Node} {segments : List Segment} {ts us : List Token}
    (h : Expands ns segments ts) (h' : Expands ns segments us) : ts = us := by
  induction h generalizing us with
  | nil =>
    cases h'
    rfl
  | token _ ih =>
    cases h' with
    | token h' => rw [ih h']
  | child found _ _ ih ih' =>
    cases h' with
    | child found' inner rest =>
      cases found.symm.trans found'
      rw [ih inner, ih' rest]

theorem Separate.openings_take {extra n m : Nat} {us ws : List Token}
    (h : Separate extra n us ws) (le : m ≤ us.length) :
    openings (ws.take (n + m)) = openings (ws.take n) + openings (us.take m) := by
  obtain ⟨ts, vs, rfl, rfl⟩ := h.split
  rw [List.take_append, Nat.add_sub_cancel_left, List.take_of_length_le (Nat.le_add_right _ _),
    List.take_append_of_le_length le, List.take_left, openings, List.countP_append]
  rfl

namespace Outline

variable {index id depth k extra : Nat} {n m : Node} {o : Outline}

/-! ## The nodes of a group and of what follows it -/

/-- The node of a group, if its opening parenthesis is the token number `index` and it has the
number `id`. -/
def groupNode (index id depth : Nat) (opening : Token) (body : Outline) (closing : Token) : Node where
  first := index + 1
  pastLast := index + 1 + body.size
  span := ⟨opening.stop, closing.start⟩
  outerSpan := opening.span.through closing.span
  depth := depth
  children := body.groupIds (id + 1)
  body := body

theorem groupNodes_group (opening : Token) (body : Outline) (closing : Token) (rest : Outline) :
    (group opening body closing rest).groupNodes index id depth =
      groupNode index id depth opening body closing ::
        (body.groupNodes (index + 1) (id + 1) (depth + 1) ++
          rest.groupNodes (index + body.size + 2) (id + 1 + body.groupCount) depth) := rfl

/-- A node is the first group, or inside of it, or behind it. -/
theorem getElem?_groupNodes_group {opening closing : Token} {body rest : Outline} :
    ((group opening body closing rest).groupNodes index id depth)[k]? = some n ↔
      k = 0 ∧ n = groupNode index id depth opening body closing ∨
      (∃ l, k = l + 1 ∧
        (body.groupNodes (index + 1) (id + 1) (depth + 1))[l]? = some n) ∨
      ∃ l, k = body.groupCount + l + 1 ∧
        (rest.groupNodes (index + body.size + 2) (id + 1 + body.groupCount) depth)[l]? = some n := by
  have length := body.length_groupNodes (index + 1) (id + 1) (depth + 1)
  rw [groupNodes_group]
  constructor
  · intro h
    cases k with
    | zero =>
      cases h
      exact .inl ⟨rfl, rfl⟩
    | succ k =>
      rw [List.getElem?_cons_succ] at h
      by_cases lt : k < body.groupCount
      · rw [List.getElem?_append_left (by omega)] at h
        exact .inr (.inl ⟨k, rfl, h⟩)
      · rw [List.getElem?_append_right (by omega), length] at h
        exact .inr (.inr ⟨k - body.groupCount, by omega, h⟩)
  · rintro (⟨rfl, rfl⟩ | ⟨l, rfl, h⟩ | ⟨l, rfl, h⟩)
    · rfl
    · have lt := (List.getElem?_eq_some_iff.1 h).1
      rw [List.getElem?_cons_succ, List.getElem?_append_left lt, h]
    · rw [List.getElem?_cons_succ, List.getElem?_append_right (by omega), length,
        Nat.add_sub_cancel_left, h]

/-! ## Nodes and partners -/

theorem openings_tokens (matched : o.Matched) : openings o.tokens = o.groupCount := by
  induction o with
  | nil => rfl
  | token t rest ih =>
    have plain : t.lexeme ≠ .opening := fun opens => matched.1 (.inl opens)
    rw [tokens, openings, List.countP_cons_of_neg (by simpa using plain)]
    exact ih matched.2
  | group opening body closing rest ihBody ihRest =>
    obtain ⟨opens, closes, body_matched, rest_matched⟩ := matched
    have not_opening : closing.lexeme ≠ .opening := by
      rw [closes]
      exact Lexeme.noConfusion
    have inside := ihBody body_matched
    have behind := ihRest rest_matched
    rw [openings] at inside behind
    rw [tokens, openings, List.countP_cons_of_pos (by simpa using opens), List.countP_append,
      List.countP_cons_of_neg (by simpa using not_opening), inside, behind, groupCount]

theorem isGroup_groupNode {ws : List Token} {opening closing : Token} {body rest : Outline}
    (matched : (group opening body closing rest).Matched)
    (h : Separate extra index (group opening body closing rest).tokens ws) :
    (groupNode index id (extra + 1) opening body closing).IsGroup ws index
      (index + 1 + body.size) opening closing := by
  obtain ⟨opens, closes, body_matched, -⟩ := matched
  have partners := partners_pair opens closes body_matched.balanced rest.tokens
  have first := Nat.zero_lt_of_lt partners.lt_length
  have length := body.length_tokens
  have closes_at : index + 1 + body.size = index + (body.tokens.length + 1) := by omega
  have at_j : (group opening body closing rest).tokens[body.tokens.length + 1]? = some closing := by
    simp [tokens]
  refine ⟨?_, ?_, ?_, rfl, rfl, rfl, rfl, ?_⟩
  · rw [closes_at]
    exact (h.partners_iff partners.lt_length).2 partners
  · exact h.getElem? first
  · rw [closes_at, h.getElem? partners.lt_length, at_j]
  · have one : nesting (group opening body closing rest).tokens 0 = 1 :=
      openedBefore_one partners (Nat.zero_le _)
    have nested := h.nesting_eq first
    rw [one] at nested
    exact nested.symm

theorem holds_groupNode {ws : List Token} {opening closing : Token} {body rest : Outline}
    (matched : (group opening body closing rest).Matched)
    (h : Separate extra index (group opening body closing rest).tokens ws) :
    (groupNode index id depth opening body closing).Holds ws := by
  obtain ⟨opens, closes, body_matched, -⟩ := matched
  have partners := partners_pair opens closes body_matched.balanced rest.tokens
  have between := h.between (i := 0) partners.lt_length
  rw [tokens, between_pair] at between
  refine ⟨?_, body_matched⟩
  have closes_at : index + 1 + body.size = index + (body.tokens.length + 1) := by
    have := body.length_tokens
    omega
  exact between.symm.trans (congrArg (fun j => (ws.take j).drop (index + 1)) closes_at.symm)

/-- Up to the end of a group, one more parenthesis is opened than there are groups in it. -/
theorem openings_take_group (matched : (group opening body closing rest).Matched) :
    openings ((group opening body closing rest).tokens.take (body.tokens.length + 2)) =
      body.groupCount + 1 := by
  obtain ⟨opens, closes, body_matched, -⟩ := matched
  have upto : (group opening body closing rest).tokens.take (body.tokens.length + 2) =
      (group opening body closing nil).tokens := by
    rw [tokens, List.take_succ_cons, List.take_append, List.take_of_length_le (Nat.le_succ _),
      Nat.add_sub_cancel_left]
    rfl
  rw [upto]
  exact openings_tokens ⟨opens, closes, body_matched, trivial⟩

/-- Every node stands at an opening parenthesis and its partner, and as many parentheses are opened
before it as there are nodes. -/
theorem exists_isGroup {ws : List Token} (matched : o.Matched)
    (separate : Separate extra index o.tokens ws)
    (h : (o.groupNodes index id (extra + 1))[k]? = some n) :
    n.Holds ws ∧ ∃ i j t u, n.IsGroup ws i j t u ∧
      openings (ws.take i) = openings (ws.take index) + k := by
  induction o generalizing extra index id k with
  | nil => cases h
  | token t rest ih =>
    obtain ⟨plain, matched⟩ := matched
    -- The token opens nothing, so that the count does not change.
    have alone : ∀ j, ¬Partners (t :: rest.tokens) 0 j := alone_of_plain plain
    have behind := (Separate.cons alone).trans separate
    have upto := separate.openings_take (m := 1) (Nat.succ_pos _)
    have no_opening : openings [t] = 0 := List.countP_eq_zero.2 fun u hu opens => by
      obtain rfl := List.mem_singleton.1 hu
      exact plain (.inl (by simpa using opens))
    obtain ⟨holds, i, j, t', u, group, count⟩ := ih matched behind h
    refine ⟨holds, i, j, t', u, group, ?_⟩
    rw [count, upto]
    exact congrArg (openings (ws.take index) + · + k) no_opening
  | group opening body closing rest ihBody ihRest =>
    have whole := matched
    obtain ⟨opens, closes, body_matched, rest_matched⟩ := matched
    have balanced := body_matched.balanced
    have length := body.length_tokens
    -- The node is the first group, inside of it, or behind it.
    rcases getElem?_groupNodes_group.1 h with ⟨rfl, rfl⟩ | ⟨l, rfl, found⟩ | ⟨l, rfl, found⟩
    · exact ⟨holds_groupNode whole separate, _, _, _, _, isGroup_groupNode whole separate, rfl⟩
    · -- One more parenthesis is open: that of the group.
      have inside := (Separate.inside opens closes balanced rest.tokens).trans separate
      have upto := separate.openings_take (m := 1) (Nat.succ_pos _)
      have one : openings [opening] = 1 := List.countP_eq_length.2 fun u hu => by
        obtain rfl := List.mem_singleton.1 hu
        simpa using opens
      obtain ⟨holds, i, j, t', u, group, count⟩ := ihBody body_matched inside found
      refine ⟨holds, i, j, t', u, group, ?_⟩
      have first : openings (ws.take (index + 1)) = openings (ws.take index) + 1 :=
        upto.trans (congrArg (openings (ws.take index) + ·) one)
      omega
    · -- As many parentheses are opened up to the end of the group as it has nodes.
      have behind := (Separate.behind opens closes balanced rest.tokens).trans separate
      have upto := separate.openings_take (m := body.tokens.length + 2)
        (by simp only [tokens, List.length_cons, List.length_append]; omega)
      rw [openings_take_group whole] at upto
      have place : index + body.size + 2 = index + (body.tokens.length + 2) := by omega
      rw [place] at found
      obtain ⟨holds, i, j, t', u, group, count⟩ := ihRest rest_matched behind found
      exact ⟨holds, i, j, t', u, group, by omega⟩

/-! ## Nodes in nodes -/

/-- Nodes of an outline have their tokens among those of the outline, with their parentheses. -/
theorem bounds_of_mem_groupNodes (h : n ∈ o.groupNodes index id depth) :
    index < n.first ∧ n.first ≤ n.pastLast ∧ n.pastLast < index + o.size ∧ depth ≤ n.depth := by
  induction o generalizing index id depth with
  | nil => cases h
  | token t rest ih =>
    obtain ⟨first, order, last, deep⟩ := ih h
    rw [size]
    omega
  | group opening body closing rest ihBody ihRest =>
    rw [groupNodes_group] at h
    rw [size]
    rcases List.mem_cons.1 h with rfl | h
    · simp only [groupNode]
      omega
    rcases List.mem_append.1 h with h | h
    · obtain ⟨first, order, last, deep⟩ := ihBody h
      omega
    · obtain ⟨first, order, last, deep⟩ := ihRest h
      omega

/-- Among the nodes of an outline, those of a node's inside follow it, and no others are inside of
it. -/
theorem split_groupNodes (h : (o.groupNodes index id depth)[k]? = some n) :
    n.children = n.body.groupIds (id + k + 1) ∧ n.first + n.body.size = n.pastLast ∧
    ∃ before after, o.groupNodes index id depth =
        before ++ n :: (n.body.groupNodes n.first (id + k + 1) (n.depth + 1) ++ after) ∧
      before.length = k ∧ ∀ m, m ∈ before ∨ m ∈ after → ¬m.Inside n := by
  induction o generalizing index id depth k with
  | nil => cases h
  | token t rest ih => exact ih h
  | group opening body closing rest ihBody ihRest =>
    rcases getElem?_groupNodes_group.1 h with ⟨rfl, rfl⟩ | ⟨l, rfl, found⟩ | ⟨l, rfl, found⟩
    · -- The node is the first group: what is behind it begins too late.
      refine ⟨rfl, rfl, [], _, rfl, rfl, fun m hm inside => ?_⟩
      have bounds := bounds_of_mem_groupNodes (hm.resolve_left List.not_mem_nil)
      have last : m.pastLast < index + 1 + body.size := inside.2
      omega
    · -- The node is in the first group: that begins too early, and what is behind it too late.
      obtain ⟨children, size, before, after, eq, length, outside⟩ := ihBody found
      have number : id + 1 + l = id + (l + 1) := by omega
      have bounds := bounds_of_mem_groupNodes (List.mem_of_getElem? found)
      rw [number] at children eq
      refine ⟨children, size, groupNode index id depth opening body closing :: before,
        after ++ rest.groupNodes (index + body.size + 2) (id + 1 + body.groupCount) depth,
        by rw [groupNodes_group, eq]; simp, congrArg (· + 1) length, fun m hm inside => ?_⟩
      rcases hm with hm | hm
      · rcases List.mem_cons.1 hm with rfl | hm
        · have first : n.first < index + 1 := inside.1
          omega
        · exact outside m (.inl hm) inside
      · rcases List.mem_append.1 hm with hm | hm
        · exact outside m (.inr hm) inside
        · have behind := bounds_of_mem_groupNodes hm
          have last := inside.2
          omega
    · -- The node is behind the first group, all of which ends too early.
      obtain ⟨children, size, before, after, eq, length, outside⟩ := ihRest found
      have number : id + 1 + body.groupCount + l = id + (body.groupCount + l + 1) := by omega
      have bounds := bounds_of_mem_groupNodes (List.mem_of_getElem? found)
      rw [number] at children eq
      refine ⟨children, size, groupNode index id depth opening body closing ::
          (body.groupNodes (index + 1) (id + 1) (depth + 1) ++ before), after,
        by rw [groupNodes_group, eq]; simp, ?_, fun m hm inside => ?_⟩
      · rw [List.length_cons, List.length_append, length_groupNodes, length]
      · rcases hm with hm | hm
        · have first := inside.1
          rcases List.mem_cons.1 hm with rfl | hm
          · have first : n.first < index + 1 := inside.1
            omega
          rcases List.mem_append.1 hm with hm | hm
          · have before := bounds_of_mem_groupNodes hm
            omega
          · exact outside m (.inl hm) inside
        · exact outside m (.inr hm) inside

/-- Every node is one of the outermost, or inside of one of these. -/
theorem exists_outermost (h : n ∈ o.groupNodes index id depth) :
    n.depth = depth ∨ ∃ m ∈ o.groupNodes index id depth, m.depth = depth ∧ n.Inside m := by
  induction o generalizing index id with
  | nil => cases h
  | token t rest ih => exact ih h
  | group opening body closing rest _ ih =>
    rw [groupNodes_group] at h ⊢
    rcases List.mem_cons.1 h with rfl | h
    · exact .inl rfl
    rcases List.mem_append.1 h with h | h
    · obtain ⟨first, -, last, -⟩ := bounds_of_mem_groupNodes h
      exact .inr ⟨_, List.mem_cons_self, rfl, first, last⟩
    · refine (ih h).imp_right fun ⟨m, mem, rest⟩ => ⟨m, ?_, rest⟩
      exact List.mem_cons_of_mem _ (List.mem_append_right _ mem)

theorem mem_groupIds_iff (index depth : Nat) {c : Nat} : c ∈ o.groupIds id ↔
    ∃ k n, c = id + k ∧ (o.groupNodes index id depth)[k]? = some n ∧ n.depth = depth := by
  induction o generalizing index id with
  | nil =>
    refine ⟨nofun, ?_⟩
    rintro ⟨k, n, -, h, -⟩
    cases h
  | token t rest ih => exact ih (index + 1)
  | group opening body closing rest _ ih =>
    rw [groupIds, List.mem_cons, ih (index + body.size + 2)]
    constructor
    · rintro (rfl | ⟨k, n, rfl, h, outermost⟩)
      · exact ⟨0, _, rfl, rfl, rfl⟩
      · exact ⟨body.groupCount + k + 1, n, by omega,
          getElem?_groupNodes_group.2 (.inr (.inr ⟨k, rfl, h⟩)), outermost⟩
    · rintro ⟨k, n, rfl, h, outermost⟩
      rcases getElem?_groupNodes_group.1 h with ⟨rfl, rfl⟩ | ⟨l, rfl, found⟩ | ⟨l, rfl, found⟩
      · exact .inl rfl
      · have bounds := bounds_of_mem_groupNodes (List.mem_of_getElem? found)
        omega
      · exact .inr ⟨l, n, by omega, found, outermost⟩

theorem le_of_mem_groupIds {c : Nat} (h : c ∈ o.groupIds id) : id ≤ c := by
  obtain ⟨k, n, rfl, -⟩ := (mem_groupIds_iff 0 0).1 h
  exact Nat.le_add_right id k

theorem groupIds_increasing (id : Nat) (o : Outline) : (o.groupIds id).Pairwise (· < ·) := by
  induction o generalizing id with
  | nil => exact .nil
  | token t rest ih => exact ih id
  | group opening body closing rest _ ih =>
    refine .cons (fun c hc => ?_) (ih _)
    have := le_of_mem_groupIds hc
    omega

/-- Among all nodes, those of a node's inside follow it, and no others are inside of it. -/
theorem split_nodes (h : o.nodes[k]? = some n) :
    n.children = n.body.groupIds (k + 1) ∧ n.first + n.body.size = n.pastLast ∧
    ∃ before after,
      o.nodes = before ++ n :: (n.body.groupNodes n.first (k + 1) (n.depth + 1) ++ after) ∧
      before.length = k ∧ ∀ m, m ∈ before ∨ m ∈ after → ¬m.Inside n := by
  cases k with
  | zero =>
    cases h
    exact ⟨rfl, Nat.zero_add _, [], [], by rw [List.append_nil]; rfl, rfl, by simp⟩
  | succ k =>
    obtain ⟨children, size, before, after, eq, length, outside⟩ := split_groupNodes h
    have bounds := bounds_of_mem_groupNodes (List.mem_of_getElem? h)
    rw [Nat.add_comm 1 k] at children eq
    refine ⟨children, size, _ :: before, after, congrArg (_ :: ·) eq, congrArg (· + 1) length,
      fun m hm inside => ?_⟩
    rcases hm with hm | hm
    · rcases List.mem_cons.1 hm with rfl | hm
      · have first : n.first < 0 := inside.1
        omega
      · exact outside m (.inl hm) inside
    · exact outside m (.inr hm) inside

/-- A node inside of another one is among the nodes of its inside. -/
theorem exists_of_inside {c : Nat} (hn : o.nodes[k]? = some n) (hm : o.nodes[c]? = some m)
    (inside : m.Inside n) : ∃ l, c = k + 1 + l ∧
      (n.body.groupNodes n.first (k + 1) (n.depth + 1))[l]? = some m := by
  obtain ⟨-, -, before, after, eq, length, outside⟩ := split_nodes hn
  rw [eq] at hm
  rcases Nat.lt_trichotomy c k with lt | rfl | gt
  · rw [List.getElem?_append_left (by omega)] at hm
    exact absurd inside (outside m (.inl (List.mem_of_getElem? hm)))
  · rw [List.getElem?_append_right (by omega), length, Nat.sub_self] at hm
    cases hm
    exact absurd inside.1 (Nat.lt_irrefl _)
  · obtain ⟨l, rfl⟩ := Nat.exists_eq_add_of_le (show k + 1 ≤ c from gt)
    rw [List.getElem?_append_right (by omega), length, Nat.add_assoc, Nat.add_sub_cancel_left,
      Nat.add_comm 1 l, List.getElem?_cons_succ] at hm
    refine ⟨l, rfl, ?_⟩
    by_cases lt : l < (n.body.groupNodes n.first (k + 1) (n.depth + 1)).length
    · rwa [List.getElem?_append_left lt] at hm
    · rw [List.getElem?_append_right (Nat.not_lt.1 lt)] at hm
      exact absurd inside (outside m (.inr (List.mem_of_getElem? hm)))

theorem depth_lt_of_inside (hn : n ∈ o.nodes) (hm : m ∈ o.nodes) (inside : m.Inside n) :
    n.depth < m.depth := by
  obtain ⟨k, hn⟩ := List.mem_iff_getElem?.1 hn
  obtain ⟨c, hm⟩ := List.mem_iff_getElem?.1 hm
  obtain ⟨l, -, found⟩ := exists_of_inside hn hm inside
  exact (bounds_of_mem_groupNodes (List.mem_of_getElem? found)).2.2.2

theorem inside_of_mem (hn : o.nodes[k]? = some n)
    (hm : m ∈ n.body.groupNodes n.first (k + 1) (n.depth + 1)) : m.Inside n := by
  obtain ⟨-, size, -⟩ := split_nodes hn
  obtain ⟨first, -, last, -⟩ := bounds_of_mem_groupNodes hm
  exact ⟨first, by omega⟩

/-- The nodes of a node's inside are numbered from the next number on. -/
theorem getElem?_nodes_inside {l : Nat} (hn : o.nodes[k]? = some n)
    (hm : (n.body.groupNodes n.first (k + 1) (n.depth + 1))[l]? = some m) :
    o.nodes[k + 1 + l]? = some m := by
  obtain ⟨-, -, before, after, eq, length, -⟩ := split_nodes hn
  have lt := (List.getElem?_eq_some_iff.1 hm).1
  rw [eq, List.getElem?_append_right (by omega), length, Nat.add_assoc, Nat.add_sub_cancel_left,
    Nat.add_comm 1 l, List.getElem?_cons_succ, List.getElem?_append_left lt, hm]

/-- The children of a node are the groups directly inside of it. -/
theorem mem_children_iff {c : Nat} (hn : o.nodes[k]? = some n) :
    c ∈ n.children ↔ ∃ m, o.nodes[c]? = some m ∧ m.DirectlyInside o.nodes n := by
  have member := List.mem_of_getElem? hn
  obtain ⟨children, size, -⟩ := split_nodes hn
  rw [children, mem_groupIds_iff n.first (n.depth + 1)]
  constructor
  · rintro ⟨l, m, rfl, found, outermost⟩
    have inside := inside_of_mem hn (List.mem_of_getElem? found)
    have found := getElem?_nodes_inside hn found
    refine ⟨m, found, inside, fun n' hn' below above => ?_⟩
    have lt := depth_lt_of_inside hn' (List.mem_of_getElem? found) below
    have lt' := depth_lt_of_inside member hn' above
    omega
  · rintro ⟨m, found, inside, direct⟩
    obtain ⟨l, rfl, among⟩ := exists_of_inside hn found inside
    refine ⟨l, m, rfl, among, ?_⟩
    rcases exists_outermost (List.mem_of_getElem? among) with outermost | ⟨n', hn', -, below⟩
    · exact outermost
    · obtain ⟨l', found'⟩ := List.mem_iff_getElem?.1 hn'
      have member' := List.mem_of_getElem? (getElem?_nodes_inside hn found')
      exact absurd (inside_of_mem hn hn') (direct n' member' below)

/-! ## The pieces of a node -/

theorem not_parenthesis_of_mem_segments (matched : o.Matched) {t : Token}
    (h : .token t ∈ o.segments id) : ¬t.IsParenthesis := by
  induction o generalizing id with
  | nil => cases h
  | token u rest ih =>
    rw [segments] at h
    split at h
    · exact ih matched.2 h
    · rcases List.mem_cons.1 h with eq | h
      · cases eq
        exact matched.1
      · exact ih matched.2 h
  | group opening body closing rest _ ih =>
    rcases List.mem_cons.1 h with eq | h
    · cases eq
    · exact ih matched.2.2.2 h

/-- The groups of the outline are found by their numbers, if the first one has the number `id`. -/
def NumberedIn (ns : List Node) (index id depth : Nat) (o : Outline) : Prop :=
  ∀ k n, (o.groupNodes index id depth)[k]? = some n → ns[id + k]? = some n

namespace NumberedIn

variable {ns : List Node} {opening closing : Token} {body rest : Outline}

theorem first (h : (group opening body closing rest).NumberedIn ns index id depth) :
    ns[id]? = some (groupNode index id depth opening body closing) := h 0 _ rfl

theorem inside (h : (group opening body closing rest).NumberedIn ns index id depth) :
    body.NumberedIn ns (index + 1) (id + 1) (depth + 1) := by
  intro k n found
  have place : id + 1 + k = id + (k + 1) := by omega
  rw [place]
  exact h _ n (getElem?_groupNodes_group.2 (.inr (.inl ⟨k, rfl, found⟩)))

theorem behind (h : (group opening body closing rest).NumberedIn ns index id depth) :
    rest.NumberedIn ns (index + body.size + 2) (id + 1 + body.groupCount) depth := by
  intro k n found
  have place : id + 1 + body.groupCount + k = id + (body.groupCount + k + 1) := by omega
  rw [place]
  exact h _ n (getElem?_groupNodes_group.2 (.inr (.inr ⟨k, rfl, found⟩)))

end NumberedIn

theorem numberedIn_nodes (o : Outline) : o.NumberedIn o.nodes 0 1 1 := by
  intro k n found
  rw [Nat.add_comm]
  exact found

theorem numberedIn_body (hn : o.nodes[k]? = some n) :
    n.body.NumberedIn o.nodes n.first (k + 1) (n.depth + 1) :=
  fun _ _ found => getElem?_nodes_inside hn found

/-- The pieces of an outline with all groups put back are its tokens, if its groups are found among
the nodes by their numbers. -/
theorem expands_segments {ns : List Node} (matched : o.Matched)
    (h : o.NumberedIn ns index id depth) :
    Expands ns (o.segments id) (o.tokens.filter (!·.isBlank)) := by
  induction o generalizing index id depth with
  | nil => exact .nil
  | token t rest ih =>
    have behind := ih matched.2 h
    rw [segments, tokens, List.filter_cons]
    cases blank : t.isBlank with
    | true => simpa [blank] using behind
    | false => simpa [blank] using behind.token
  | group opening body closing rest ihBody ihRest =>
    obtain ⟨l, i⟩ := opening
    obtain ⟨l', j⟩ := closing
    obtain ⟨rfl, rfl, body_matched, rest_matched⟩ := matched
    have whole := Expands.child h.first (ihBody body_matched h.inside) (ihRest rest_matched h.behind)
    rw [filter_tokens_group, List.cons_append, List.append_assoc]
    exact whole

theorem expands_iff (matched : n.body.Matched) (hn : o.nodes[k]? = some n) (us : List Token) :
    Expands o.nodes (n.segments k) us ↔ us = n.significantTokens := by
  have expands : Expands o.nodes (n.segments k) n.significantTokens :=
    expands_segments matched (numberedIn_body hn)
  constructor
  · intro h
    exact h.unique expands
  · rintro rfl
    exact expands

/-! ## The nodes of a text -/

theorem parse_eq_ok_iff {options : Options} {text : String} : parse options text = .ok o ↔
    o = ofTokens (tokenize text) ∧ o.defect? options.maxDepth 0 = none := by
  rw [parse]
  constructor
  · intro h
    split at h
    · cases h
    · next no_defect =>
      cases h
      exact ⟨rfl, no_defect⟩
  · rintro ⟨rfl, no_defect⟩
    rw [no_defect]

theorem isWhole_root {text : String} (tokens : o.tokens = tokenize text)
    (hn : o.nodes[0]? = some n) : n.IsWhole text := by
  have length := o.length_tokens
  rw [tokens] at length
  have bytes : byteLength (Token.charsOf o.tokens) = text.utf8ByteSize := by
    rw [tokens, charsOf_tokenize, byteLength_toList]
  cases hn
  exact ⟨rfl, length.symm, congrArg (Span.mk 0) bytes, congrArg (Span.mk 0) bytes, rfl⟩

theorem holds_of_getElem? (matched : o.Matched) (hn : o.nodes[k]? = some n) : n.Holds o.tokens := by
  cases k with
  | zero =>
    cases hn
    refine ⟨?_, matched⟩
    show o.tokens = (o.tokens.take o.size).drop 0
    rw [← o.length_tokens, List.take_length, List.drop_zero]
  | succ k => exact (exists_isGroup matched (Separate.refl o.tokens) hn).1

/-- A text that has an outline has one node for the whole text and one for each opening parenthesis,
described by it and its partner. The children of a node are the groups directly inside, from left to
right, and its pieces with every group put back are what stands in it. -/
theorem nodes_of_parse {options : Options} {text : String} (h : parse options text = .ok o) :
    o.nodes.length = openings (tokenize text) + 1 ∧
    (∃ n, o.nodes[0]? = some n ∧ n.IsWhole text) ∧
    (∀ (k : Nat) (n : Node), o.nodes[k + 1]? = some n → ∃ i j t u, n.IsGroup (tokenize text) i j t u ∧
      openings ((tokenize text).take i) = k) ∧
    ∀ (k : Nat) (n : Node), o.nodes[k]? = some n →
      n.children.Pairwise (· < ·) ∧
      (∀ c, c ∈ n.children ↔ ∃ m, o.nodes[c]? = some m ∧ m.DirectlyInside o.nodes n) ∧
      n.significantTokens =
        (((tokenize text).take n.pastLast).drop n.first).filter (!·.isBlank) ∧
      (∀ us, Expands o.nodes (n.segments k) us ↔ us = n.significantTokens) ∧
      ∀ t, .token t ∈ n.segments k → ¬t.IsParenthesis := by
  obtain ⟨rfl, no_defect⟩ := parse_eq_ok_iff.1 h
  have tokens_eq := tokens_ofTokens (tokenize text)
  have matched := (paired_ofTokens (tokenize text)).matched no_defect
  have count := openings_tokens matched
  rw [tokens_eq] at count
  refine ⟨?_, ⟨_, rfl, isWhole_root tokens_eq rfl⟩, fun k n hn => ?_, fun k n hn => ?_⟩
  · rw [length_nodes, nodeCount, count]
  · obtain ⟨-, i, j, t, u, group, before⟩ :=
      exists_isGroup matched (Separate.refl _) hn
    rw [tokens_eq] at group before
    refine ⟨i, j, t, u, group, ?_⟩
    rw [before, List.take_zero]
    exact Nat.zero_add k
  · have holds := holds_of_getElem? matched hn
    rw [tokens_eq] at holds
    obtain ⟨children, -⟩ := split_nodes hn
    refine ⟨?_, fun c => mem_children_iff hn, congrArg (List.filter _) holds.tokens,
      expands_iff holds.matched hn, fun t ht => not_parenthesis_of_mem_segments holds.matched ht⟩
    rw [children]
    exact groupIds_increasing _ _

/-- A group with a group in it, and one behind them. -/
theorem nodes_of_parse_nested :
    ∃ o, parse ⟨2⟩ "2*(a + (b))(c)" = .ok o ∧ o.nodes.length = 4 ∧
      ∃ n, o.nodes[1]? = some n ∧ n.children = [2] ∧
        (∃ i j t u, n.IsGroup (tokenize "2*(a + (b))(c)") i j t u ∧
          openings ((tokenize "2*(a + (b))(c)").take i) = 0) ∧
        ∀ us, Expands o.nodes (n.segments 1) us ↔ us = n.significantTokens := by
  have parsed : parse ⟨2⟩ "2*(a + (b))(c)" = .ok (ofTokens (tokenize "2*(a + (b))(c)")) := rfl
  obtain ⟨n, found, children⟩ :
      ∃ n, (ofTokens (tokenize "2*(a + (b))(c)")).nodes[1]? = some n ∧ n.children = [2] :=
    ⟨_, rfl, by decide +kernel⟩
  obtain ⟨length, -, groups, nodes⟩ := nodes_of_parse parsed
  obtain ⟨-, -, -, expands, -⟩ := nodes 1 n found
  exact ⟨_, parsed, length, n, found, children, groups 0 n found, expands⟩

end Outline

end Expansion
