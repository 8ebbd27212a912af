import Expansion.Outline

/-!
# The nodes of an outline

An outline read as a tree: the whole text is the root, and every group is a node below the node
that it stands in. Nodes are numbered in the order of their opening parentheses, the root first, so
a group's number follows from how many groups open before it.

A node is described by the tokens inside its parentheses, given by their numbers, by the regions
of the text it covers, by its depth, and by its children.
-/

namespace Expansion

/-- The whole text, or a group of it. -/
structure Node where
  /-- The number of the first token inside the parentheses. -/
  first : Nat
  /-- The number of the token after the last one inside the parentheses. -/
  pastLast : Nat
  /-- The region inside the parentheses. -/
  span : Span
  /-- The region with the parentheses. -/
  outerSpan : Span
  /-- How many groups the node stands in, itself included. -/
  depth : Nat
  /-- The numbers of the groups directly inside, from left to right. -/
  children : List Nat
  /-- What stands inside the parentheses. -/
  body : Outline

/-- A piece of a node: a token of its own, or the number of a group directly inside. -/
inductive Segment
  | token (t : Token)
  | child (id : Nat)

namespace Outline

/-- The numbers of the groups that are not nested, if the first group has the number `id`. -/
def groupIds (id : Nat) : Outline → List Nat
  | nil => []
  | token _ rest => rest.groupIds id
  | group _ body _ rest => id :: rest.groupIds (id + 1 + body.groupCount)

/-- The groups as nodes, ordered by number. The outline's first token has the number `index`, its
first group the number `id`, and its groups that are not nested have the depth `depth`. -/
def groupNodes (index id depth : Nat) : Outline → List Node
  | nil => []
  | token _ rest => rest.groupNodes (index + 1) id depth
  | group opening body closing rest =>
    let node : Node :=
      { first := index + 1
        pastLast := index + 1 + body.size
        span := ⟨opening.stop, closing.start⟩
        outerSpan := opening.span.through closing.span
        depth := depth
        children := body.groupIds (id + 1)
        body := body }
    node :: body.groupNodes (index + 1) (id + 1) (depth + 1) ++
      rest.groupNodes (index + body.size + 2) (id + 1 + body.groupCount) depth

/-- The nodes of the outline of a whole text, ordered by number. -/
def nodes (o : Outline) : List Node :=
  let all : Span := ⟨0, byteLength (Token.charsOf o.tokens)⟩
  let root : Node :=
    { first := 0
      pastLast := o.size
      span := all
      outerSpan := all
      depth := 0
      children := o.groupIds 1
      body := o }
  root :: o.groupNodes 0 1 1

/-- The number of nodes of the outline of a whole text. -/
def nodeCount (o : Outline) : Nat := o.groupCount + 1

/-- The numbers of the groups, each after the groups inside it, if the first group has the number
`id`. -/
def closingOrder (id : Nat) : Outline → List Nat
  | nil => []
  | token _ rest => rest.closingOrder id
  | group _ body _ rest =>
    body.closingOrder (id + 1) ++ id :: rest.closingOrder (id + 1 + body.groupCount)

/-- The numbers of all nodes of the outline of a whole text, each after the nodes below it. -/
def postOrder (o : Outline) : List Nat := o.closingOrder 1 ++ [0]

/-- The pieces of an outline without blanks, if its first group has the number `id`. -/
def segments (id : Nat) : Outline → List Segment
  | nil => []
  | token t rest => if t.isBlank then rest.segments id else .token t :: rest.segments id
  | group _ body _ rest => .child id :: rest.segments (id + 1 + body.groupCount)

theorem length_groupNodes (index id depth : Nat) (o : Outline) :
    (o.groupNodes index id depth).length = o.groupCount := by
  induction o generalizing index id depth with
  | nil => rfl
  | token t rest ih => exact ih _ _ _
  | group opening body closing rest ihBody ihRest =>
    simp [groupNodes, groupCount, ihBody, ihRest]

/-- There is a node for the text and one for each group. -/
theorem length_nodes (o : Outline) : o.nodes.length = o.nodeCount := by
  simp [nodes, nodeCount, length_groupNodes]

end Outline

namespace Node

/-- Whether no group stands inside the node. -/
def isLeaf (n : Node) : Bool := n.children.isEmpty

/-- The tokens inside the node that are not blank, those of nested groups included. -/
def significantTokens (n : Node) : List Token := n.body.tokens.filter (!·.isBlank)

/-- The pieces of the node with the number `id`: its groups are numbered from the next number on. -/
def segments (id : Nat) (n : Node) : List Segment := n.body.segments (id + 1)

end Node

end Expansion
