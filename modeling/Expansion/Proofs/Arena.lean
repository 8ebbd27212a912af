import Expansion.Proofs.Guards
import Expansion.Proofs.Nodes

/-!
# The arena of nodes

The nodes of a text can be found in one pass over its tokens, which counts the parentheses that are
open and adds a *cell* for each group to a list, the *arena*. Everything is then looked up in the
arena by number: the tokens of a node, its children, its segments, and the nodes in the order in
which they are resolved. Any look-up could get stuck.

**Theorem (`build?_eq`).** None does while the arena is built. Its cells are the nodes of the
outline, and it is refused with the error of the first defect.
-/

namespace Expansion

open Guarded

/-! ## Tokens -/

/-- The lexeme of the same kind with the given characters. -/
def Lexeme.withChars (cs : List Char) : Lexeme → Lexeme
  | blanks _ => blanks cs
  | digits _ => digits cs
  | letter c => letter (cs.headD c)
  | symbol c => symbol (cs.headD c)
  | l => l

@[simp] theorem Lexeme.withChars_chars (l : Lexeme) : l.withChars l.chars = l := by
  cases l <;> rfl

/-- The tokens of a text, with their characters cut out of it. -/
def tokenize? (text : String) : Option (List Token) :=
  (tokenize text).mapM fun t =>
    (t.span.cut? text.toList).map fun cs => ⟨t.lexeme.withChars cs, t.start⟩

/-- Every token starts and ends between characters. -/
theorem tokenize?_eq (text : String) : tokenize? text = some (tokenize text) := by
  have all : ∀ t ∈ tokenize text, ((t.span.cut? text.toList).map fun cs =>
      Token.mk (t.lexeme.withChars cs) t.start) = some t := by
    intro t ht
    rw [Span.cut?_eq_some_iff.2 (shows_of_mem ht), Option.map_some]
    exact congrArg (fun l => some (Token.mk l t.start)) t.lexeme.withChars_chars
  rw [tokenize?, mapM_eq_some all, List.map_id']

/-! ## Building the arena -/

/-- A node without what stands inside. -/
structure Cell where
  first : Nat
  pastLast : Nat
  span : Span
  outerSpan : Span
  depth : Nat
  children : List Nat

/-- The cell of a node. -/
def Node.cell (n : Node) : Cell := ⟨n.first, n.pastLast, n.span, n.outerSpan, n.depth, n.children⟩

/-- A text with its tokens and the cells of its nodes. -/
structure Arena where
  text : List Char
  tokens : List Token
  cells : List Cell

namespace Arena

/-- The cells with `child` as one more child of the cell `id`. -/
def addChild? (id child : Nat) (cells : List Cell) : Option (List Cell) :=
  cells[id]?.map fun c => cells.set id { c with children := c.children ++ [child] }

/-- Adds the group between the parentheses at the positions `i` and `j`, the next child of the cell
`id`. Its own cell and those of the groups inside are added by `inner`. -/
def addGroup (ts : List Token) (inner : Nat → Nat → Span → Span → List Cell → Guarded (List Cell))
    (id i j : Nat) (cells : List Cell) : Guarded (List Cell) := do
  let opening ← need ts[i]?
  let closing ← need ts[j]?
  let body ← need (range? ts (i + 1) j)
  let place := opening.span.through closing.span
  if body.all Token.isBlank then throw (.emptyParenthesis place)
  else
    let added ← inner (i + 1) j ⟨opening.stop, closing.start⟩ place cells
    need (addChild? id cells.length added)

/-- Goes over the next `n` tokens, the first of which is at position `i`, and adds their groups as
children of the cell `id`. So many parentheses are open as `level` says, the first of them at
position `start`. -/
def scan (ts : List Token) (inner : Nat → Nat → Span → Span → List Cell → Guarded (List Cell))
    (id : Nat) : (n i level start : Nat) → List Cell → Guarded (List Cell)
  | 0, _, 0, _, cells => pure cells
  | 0, _, _ + 1, start, _ => do
    let opening ← need ts[start]?
    throw (.unclosed opening.span)
  | n + 1, i, level, start, cells => do
    let t ← need ts[i]?
    match t.lexeme, level with
    | .opening, 0 => scan ts inner id n (i + 1) 1 i cells
    | .opening, level + 1 => scan ts inner id n (i + 1) (level + 2) start cells
    | .closing, 0 => throw (.unopened t.span)
    | .closing, 1 => do
      let added ← addGroup ts inner id start i cells
      scan ts inner id n (i + 1) 0 start added
    | .closing, level + 2 => scan ts inner id n (i + 1) (level + 1) start cells
    | _, level => scan ts inner id n (i + 1) level start cells

/-- Adds the cell of a node and those of the groups inside. Below the node that it stands in there
is room for `room` more levels. -/
def build (ts : List Token) (maxDepth : Nat) :
    (room first pastLast : Nat) → (span outerSpan : Span) → List Cell → Guarded (List Cell)
  | 0, _, _, _, outerSpan, _ => throw (.nestingTooDeep maxDepth outerSpan)
  | room + 1, first, pastLast, span, outerSpan, cells =>
    scan ts (build ts maxDepth room) cells.length (pastLast - first) first 0 first
      (cells ++ [⟨first, pastLast, span, outerSpan, maxDepth - room, []⟩])

/-- The arena of a text. -/
def build? (options : Options) (text : String) : Guarded Arena := do
  let ts ← need (tokenize? text)
  let all : Span := ⟨0, byteLength text.toList⟩
  let cells ← build ts options.maxDepth (options.maxDepth + 1) 0 ts.length all all []
  pure ⟨text.toList, ts, cells⟩

/-- The arena of a text with the outline `o`. -/
def ofOutline (text : String) (o : Outline) : Arena :=
  ⟨text.toList, tokenize text, o.nodes.map Node.cell⟩

section

variable {ts : List Token} {inner : Nat → Nat → Span → Span → List Cell → Guarded (List Cell)}
  {id n i j level start : Nat} {t : Token} {cells : List Cell} {o : Outline}

theorem addChild?_eq {before after : List Cell} {c : Cell} (child : Nat) :
    addChild? before.length child (before ++ c :: after) =
      some (before ++ { c with children := c.children ++ [child] } :: after) := by
  simp [addChild?]

/-! ### One token -/

theorem scan_opening_zero (h : ts[i]? = some t) (opens : t.lexeme = .opening) :
    scan ts inner id (n + 1) i 0 start cells = scan ts inner id n (i + 1) 1 i cells := by
  rw [scan, h, need_some, ok_bind, opens]

theorem scan_opening_succ (h : ts[i]? = some t) (opens : t.lexeme = .opening) :
    scan ts inner id (n + 1) i (level + 1) start cells =
      scan ts inner id n (i + 1) (level + 2) start cells := by
  rw [scan, h, need_some, ok_bind, opens]

theorem scan_closing_zero (h : ts[i]? = some t) (closes : t.lexeme = .closing) :
    scan ts inner id (n + 1) i 0 start cells = safe (.error (.unopened t.span)) := by
  rw [scan, h, need_some, ok_bind, closes]
  rfl

theorem scan_closing_one (h : ts[i]? = some t) (closes : t.lexeme = .closing) :
    scan ts inner id (n + 1) i 1 start cells =
      addGroup ts inner id start i cells >>= scan ts inner id n (i + 1) 0 start := by
  rw [scan, h, need_some, ok_bind, closes]

theorem scan_closing_succ (h : ts[i]? = some t) (closes : t.lexeme = .closing) :
    scan ts inner id (n + 1) i (level + 2) start cells =
      scan ts inner id n (i + 1) (level + 1) start cells := by
  rw [scan, h, need_some, ok_bind, closes]

theorem scan_plain (h : ts[i]? = some t) (plain : ¬t.IsParenthesis) :
    scan ts inner id (n + 1) i level start cells =
      scan ts inner id n (i + 1) level start cells := by
  rw [scan, h, need_some, ok_bind]
  obtain ⟨l, k⟩ := t
  cases l with
  | opening => exact absurd (.inl rfl) plain
  | closing => exact absurd (.inr rfl) plain
  | _ => rfl

/-! ### Tokens inside of parentheses -/

theorem standAt_group {opening closing : Token} {body rest : Outline}
    (h : StandAt ts i (Outline.group opening body closing rest).tokens) :
    ts[i]? = some opening ∧ StandAt ts (i + 1) body.tokens ∧ ts[i + 1 + body.size]? = some closing ∧
      StandAt ts (i + 1 + body.size + 1) rest.tokens := by
  have behind : StandAt ts (i + 1 + body.size) (closing :: rest.tokens) :=
    h.tail.right (by rw [Outline.length_tokens])
  exact ⟨h.head, h.tail.left, behind.head, behind.tail⟩

theorem size_group (opening : Token) (body : Outline) (closing : Token) (rest : Outline) :
    (Outline.group opening body closing rest).size = body.size + (rest.size + 1) + 1 := by
  rw [Outline.size]
  omega

/-- Tokens in which all parentheses have partners are passed over, once one is open. -/
theorem scan_matched (matched : o.Matched) (h : StandAt ts i o.tokens) :
    scan ts inner id (o.size + n) i (level + 1) start cells =
      scan ts inner id n (i + o.size) (level + 1) start cells := by
  induction o generalizing n i level with
  | nil =>
    rw [Outline.size, Nat.zero_add]
    rfl
  | token t rest ih =>
    rw [Outline.size, Nat.add_right_comm, scan_plain h.head matched.1, ih matched.2 h.tail,
      Nat.add_right_comm, Nat.add_assoc i]
  | group opening body closing rest ihBody ihRest =>
    obtain ⟨opens, closes, inside, behind⟩ := matched
    obtain ⟨at_opening, at_body, at_closing, at_rest⟩ := standAt_group h
    have count : body.size + (rest.size + 1) + 1 + n = body.size + (rest.size + n + 1) + 1 := by
      omega
    have stop : i + 1 + body.size + 1 + rest.size = i + (body.size + (rest.size + 1) + 1) := by
      omega
    rw [size_group, count, scan_opening_succ at_opening opens, ihBody inside at_body,
      scan_closing_succ at_closing closes, ihRest behind at_rest, stop]

/-- Behind a parenthesis without a partner the level stays above 0 up to the end. -/
theorem scan_onlyOpening (only : o.OnlyOpening) (h : StandAt ts i o.tokens)
    (at_start : ts[start]? = some t) :
    scan ts inner id o.size i (level + 1) start cells = safe (.error (.unclosed t.span)) := by
  induction o generalizing i level with
  | nil =>
    rw [Outline.size, scan, at_start]
    rfl
  | token u rest ih =>
    rw [Outline.size]
    by_cases opens : u.lexeme = .opening
    · rw [scan_opening_succ h.head opens, ih only.2 h.tail]
    · rw [scan_plain h.head (not_or_intro opens only.1), ih only.2 h.tail]
  | group opening body closing rest _ ih =>
    obtain ⟨opens, closes, inside, behind⟩ := only
    obtain ⟨at_opening, at_body, at_closing, at_rest⟩ := standAt_group h
    rw [size_group, scan_opening_succ at_opening opens, scan_matched inside at_body,
      scan_closing_succ at_closing closes, ih behind at_rest]

/-! ### Whole nodes -/

/-- The result, unless there is a defect. -/
def unlessDefect {α : Type} (defect : Option Error) (a : α) : Except Error α :=
  match defect with
  | some e => .error e
  | none => .ok a

theorem all_isBlank_tokens (matched : o.Matched) : o.tokens.all Token.isBlank = o.isBlank := by
  rw [Bool.eq_iff_iff, List.all_eq_true]
  exact ⟨Outline.isBlank_of_tokens matched, Outline.isBlank_of_mem_tokens⟩

theorem addGroup_eq {opening closing : Token} {body : Outline} (inside : body.Matched)
    (at_opening : ts[i]? = some opening) (at_body : StandAt ts (i + 1) body.tokens)
    (at_closing : ts[i + 1 + body.size]? = some closing) :
    addGroup ts inner id i (i + 1 + body.size) cells =
      if body.isBlank then safe (.error (.emptyParenthesis (opening.span.through closing.span)))
      else inner (i + 1) (i + 1 + body.size) ⟨opening.stop, closing.start⟩
        (opening.span.through closing.span) cells >>= fun added =>
          need (addChild? id cells.length added) := by
  rw [addGroup, at_opening, at_closing, at_body.range? (by rw [Outline.length_tokens]), need_some,
    need_some, need_some, ok_bind, ok_bind, ok_bind, all_isBlank_tokens inside]
  rfl

/-- Scanning the tokens of an outline adds the cells of its groups, and the groups that are not
nested become children of the cell. -/
def Scans (ts : List Token) (maxDepth : Nat) (o : Outline) : Prop :=
  ∀ i depth room start : Nat, StandAt ts i o.tokens → maxDepth = depth + room →
    ∀ (before : List Cell) (c : Cell) (after : List Cell) (id : Nat),
      id = before.length + 1 + after.length →
      scan ts (build ts maxDepth room) before.length o.size i 0 start (before ++ c :: after) =
        safe (unlessDefect (o.defect? maxDepth depth)
          (before ++ { c with children := c.children ++ o.groupIds id } ::
            (after ++ (o.groupNodes i id (depth + 1)).map Node.cell)))

/-- A node is added in front of the nodes inside. -/
theorem Scans.build {maxDepth depth room : Nat} {body : Outline} (scans : Scans ts maxDepth body)
    (h : StandAt ts i body.tokens) (levels : maxDepth = depth + room) (span outerSpan : Span)
    (cells : List Cell) :
    Arena.build ts maxDepth (room + 1) i (i + body.size) span outerSpan cells =
      safe (unlessDefect (body.defect? maxDepth depth)
        (cells ++ ⟨i, i + body.size, span, outerSpan, depth, body.groupIds (cells.length + 1)⟩ ::
          (body.groupNodes i (cells.length + 1) (depth + 1)).map Node.cell)) := by
  have depth_eq : maxDepth - room = depth := by omega
  rw [Arena.build, Nat.add_sub_cancel_left, depth_eq,
    scans i depth room i h levels cells _ [] _ rfl]
  rfl

theorem scans_nil (maxDepth : Nat) : Scans ts maxDepth .nil := by
  intro i depth room start _ _ before c after id _
  rw [Outline.size, scan]
  simp [Outline.groupIds, Outline.groupNodes, Outline.defect?, unlessDefect]

theorem Scans.token {maxDepth : Nat} {rest : Outline} (ordered : (Outline.token t rest).Ordered)
    (scans : Scans ts maxDepth rest) : Scans ts maxDepth (.token t rest) := by
  intro i depth room start h levels before c after id eq
  rw [Outline.size]
  by_cases opens : t.lexeme = .opening
  · rw [scan_opening_zero h.head opens, scan_onlyOpening (ordered.1 opens) h.tail h.head,
      Outline.defect?, opens]
    rfl
  by_cases closes : t.lexeme = .closing
  · rw [scan_closing_zero h.head closes, Outline.defect?, closes]
    rfl
  · have plain : ¬t.IsParenthesis := not_or_intro opens closes
    rw [scan_plain h.head plain, scans _ depth room start h.tail levels before c after id eq,
      Outline.defect?_plain plain]
    rfl

theorem Scans.group {maxDepth : Nat} {opening closing : Token} {body rest : Outline}
    (opens : opening.lexeme = .opening) (closes : closing.lexeme = .closing) (inside : body.Matched)
    (scans : Scans ts maxDepth body) (scans' : Scans ts maxDepth rest) :
    Scans ts maxDepth (.group opening body closing rest) := by
  intro i depth room start h levels before c after id eq
  obtain ⟨at_opening, at_body, at_closing, at_rest⟩ := standAt_group h
  have next : i + 1 + body.size + 1 = i + body.size + 2 := by omega
  rw [next] at at_rest
  -- The scan goes through the group and back to where the group began.
  rw [size_group, scan_opening_zero at_opening opens, scan_matched inside at_body,
    scan_closing_one at_closing closes, next, addGroup_eq inside at_opening at_body at_closing,
    Outline.defect?]
  cases body.isBlank with
  | true => rfl
  | false =>
    rw [if_neg Bool.false_ne_true, if_neg Bool.false_ne_true]
    -- The tokens in the group are built with one level less, if one is left.
    cases room with
    | zero =>
      rw [Arena.build, if_pos (by omega)]
      rfl
    | succ room =>
      have number : (before ++ c :: after).length = id := by
        simp
        omega
      rw [scans.build at_body (levels.trans (Nat.add_right_comm depth room 1)), number,
        if_neg (by omega)]
      cases body.defect? maxDepth (depth + 1) with
      | some e => rfl
      | none =>
        -- The scan goes on behind the group, with the nodes of the group added.
        have number' : id + 1 + body.groupCount = before.length + 1 + (after ++
            (Outline.groupNode i id (depth + 1) opening body closing ::
              body.groupNodes (i + 1) (id + 1) (depth + 1 + 1)).map Node.cell).length := by
          simp [Outline.length_groupNodes]
          omega
        have behind := scans' _ depth (room + 1) i at_rest levels before
          { c with children := c.children ++ [id] } _ _ number'
        simp only [unlessDefect, ok_bind, List.append_assoc, List.cons_append, addChild?_eq,
          need_some, Option.none_or]
        refine behind.trans ?_
        simp [unlessDefect, Outline.groupIds, Outline.groupNodes_group]

/-- The tokens of every outline in which the parentheses without partners are in order can be
scanned. -/
theorem scans_of_ordered (maxDepth : Nat) (ordered : o.Ordered) : Scans ts maxDepth o := by
  induction o with
  | nil => exact scans_nil maxDepth
  | token t rest ih => exact Scans.token ordered (ih ordered.2)
  | group opening body closing rest ihBody ihRest =>
    obtain ⟨opens, closes, inside, behind⟩ := ordered
    exact Scans.group opens closes inside (ihBody inside.onlyOpening.ordered) (ihRest behind)

end

/-! ### The whole text -/

/-- Building the arena never gets stuck. It is the arena of the outline, or there is the error of
the first defect. -/
theorem build?_eq (options : Options) (text : String) :
    build? options text =
      safe (Outline.parse options text >>= fun o => .ok (ofOutline text o)) := by
  have tokens := Outline.tokens_ofTokens (tokenize text)
  have scans : Scans (tokenize text) options.maxDepth (Outline.ofTokens (tokenize text)) :=
    scans_of_ordered options.maxDepth (Outline.ordered_ofTokens (tokenize text))
  have stand : StandAt (tokenize text) 0 (Outline.ofTokens (tokenize text)).tokens := by
    rw [tokens]
    exact standAt_self _
  have size : (tokenize text).length = 0 + (Outline.ofTokens (tokenize text)).size := by
    rw [← Outline.length_tokens, tokens, Nat.zero_add]
  have whole : byteLength text.toList =
      byteLength (Token.charsOf (Outline.ofTokens (tokenize text)).tokens) := by
    rw [tokens, charsOf_tokenize]
  rw [build?, tokenize?_eq, need_some, ok_bind, size]
  dsimp only
  rw [scans.build stand (Nat.zero_add _).symm, whole, Outline.parse]
  cases (Outline.ofTokens (tokenize text)).defect? options.maxDepth 0 with
  | some e => rfl
  | none =>
    show safe (.ok (Arena.mk _ _ _)) = safe (.ok (Arena.mk _ _ _))
    rw [Nat.zero_add]
    rfl

end Arena

end Expansion
