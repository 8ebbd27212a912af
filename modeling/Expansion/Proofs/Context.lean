import Expansion.Outline.Node
import Expansion.Proofs.MovedOutlines

/-!
# Groups in their contexts

A *context* is an outline in which the inside of one group is left out. It can be filled with any
outline.

**Theorem (`exists_context`).** The outline around every node of a group is such a context.

**Theorem (`itemsOf_fill`).** A context that is filled with something else of the same value has the
same items, only moved.

The claims about contexts are by induction over the way from the whole outline to the group: the
group comes first, or it is inside of the first group, or behind a token, or behind another group.
-/

namespace Expansion.Outline

/-- An outline without the inside of one of its groups. -/
inductive Context
  /-- The first group is the one. -/
  | group (opening closing : Token) (rest : Outline)
  /-- The group is inside of the first group. -/
  | inside (opening : Token) (C : Context) (closing : Token) (rest : Outline)
  /-- The group is behind a token. -/
  | token (t : Token) (C : Context)
  /-- The group is behind another one. -/
  | after (opening : Token) (body : Outline) (closing : Token) (C : Context)

namespace Context

/-- The outline with the inside of the group put in. -/
def fill (b : Outline) : Context → Outline
  | group opening closing rest => .group opening b closing rest
  | inside opening C closing rest => .group opening (C.fill b) closing rest
  | token t C => .token t (C.fill b)
  | after opening body closing C => .group opening body closing (C.fill b)

/-- How many groups the group stands in. -/
def level : Context → Nat
  | group _ _ _ => 0
  | inside _ C _ _ => C.level + 1
  | token _ C | after _ _ _ C => C.level

/-- The tokens before the group. -/
def before : Context → List Token
  | group _ _ _ => []
  | inside opening C _ _ => opening :: C.before
  | token t C => t :: C.before
  | after opening body closing C => opening :: (body.tokens ++ closing :: C.before)

/-- The first token of the group. -/
def opening : Context → Token
  | group opening _ _ => opening
  | inside _ C _ _ | token _ C | after _ _ _ C => C.opening

/-- The last token of the group. -/
def closing : Context → Token
  | group _ closing _ => closing
  | inside _ C _ _ | token _ C | after _ _ _ C => C.closing

/-- The tokens behind the group. -/
def behind : Context → List Token
  | group _ _ rest => rest.tokens
  | inside _ C closing rest => C.behind ++ closing :: rest.tokens
  | token _ C | after _ _ _ C => C.behind

theorem tokens_fill (C : Context) (b : Outline) :
    (C.fill b).tokens = C.before ++ C.opening :: (b.tokens ++ C.closing :: C.behind) := by
  induction C with
  | group => rfl
  | inside opening C closing rest ih =>
    rw [fill, tokens, ih, before, Context.opening, Context.closing, behind]
    simp
  | token t C ih =>
    rw [fill, tokens, ih]
    rfl
  | after opening body closing C ih =>
    rw [fill, tokens, ih, before]
    simp [Context.opening, Context.closing, behind]

/-- Every node of a group has a context. -/
theorem exists_context {o : Outline} {n : Node} {index id depth : Nat}
    (h : n ∈ o.groupNodes index id depth) :
    ∃ C : Context, o = C.fill n.body ∧ n.depth = depth + C.level ∧
      n.span = ⟨C.opening.stop, C.closing.start⟩ ∧
      n.outerSpan = C.opening.span.through C.closing.span := by
  induction o generalizing index id depth with
  | nil => cases h
  | token t rest ih =>
    obtain ⟨C, rfl, depth_eq, span, outer⟩ := ih h
    exact ⟨.token t C, rfl, depth_eq, span, outer⟩
  | group opening body closing rest ihBody ihRest =>
    rw [groupNodes, List.cons_append, List.mem_cons, List.mem_append] at h
    rcases h with rfl | inside | behind
    · exact ⟨.group opening closing rest, rfl, rfl, rfl, rfl⟩
    · obtain ⟨C, rfl, depth_eq, span, outer⟩ := ihBody inside
      exact ⟨.inside opening C closing rest, rfl, by rw [depth_eq, level]; omega, span, outer⟩
    · obtain ⟨C, rfl, depth_eq, span, outer⟩ := ihRest behind
      exact ⟨.after opening body closing C, rfl, depth_eq, span, outer⟩

/-! ## Defects -/

theorem matched_fill {C : Context} {b : Outline} :
    (C.fill b).Matched ↔ (C.fill .nil).Matched ∧ b.Matched := by
  induction C with
  | group =>
    simp only [fill, Matched]
    tauto
  | inside opening C closing rest ih =>
    simp only [fill, Matched, ih]
    tauto
  | token t C ih =>
    simp only [fill, Matched, ih]
    tauto
  | after opening body closing C ih =>
    simp only [fill, Matched, ih]
    tauto

theorem parentheses_of_matched {C : Context} {b : Outline} (h : (C.fill b).Matched) :
    C.opening.lexeme = .opening ∧ C.closing.lexeme = .closing := by
  induction C with
  | group => exact ⟨h.1, h.2.1⟩
  | inside _ _ _ _ ih => exact ih h.2.2.1
  | token _ _ ih => exact ih h.2
  | after _ _ _ _ ih => exact ih h.2.2.2

theorem isBlank_fill (C : Context) (b : Outline) : (C.fill b).isBlank = false := by
  induction C with
  | group | inside | after => rfl
  | token t C ih => rw [fill, isBlank, ih, Bool.and_false]

theorem defect?_of_fill {C : Context} {b : Outline} {maxDepth depth : Nat}
    (h : (C.fill b).defect? maxDepth depth = none) :
    b.isBlank = false ∧ depth + C.level < maxDepth ∧
      b.defect? maxDepth (depth + C.level + 1) = none := by
  induction C generalizing depth with
  | group =>
    obtain ⟨nonblank, small, inner, -⟩ := defect?_group h
    exact ⟨nonblank, small, inner⟩
  | inside opening C closing rest ih =>
    obtain ⟨-, -, inner, -⟩ := defect?_group h
    have level : depth + 1 + C.level = depth + (C.level + 1) := by omega
    exact level ▸ ih inner
  | token t C ih => exact ih (defect?_token h)
  | after opening body closing C ih => exact ih (defect?_group h).2.2.2

end Context

theorem defect?_group_eq_none {maxDepth depth : Nat} {opening closing : Token} {body rest : Outline}
    (nonblank : body.isBlank = false) (small : depth < maxDepth)
    (inner : body.defect? maxDepth (depth + 1) = none)
    (outer : rest.defect? maxDepth depth = none) :
    (group opening body closing rest).defect? maxDepth depth = none := by
  simp [defect?, nonblank, Nat.not_le.2 small, inner, outer]

theorem defect?_eq_none_relocate {μ : Relocation} {maxDepth depth : Nat} {o : Outline}
    (carries : μ.Carries o.tokens) (h : o.defect? maxDepth depth = none) :
    (o.relocate μ).defect? maxDepth depth = none := by
  rw [defect?_relocate maxDepth depth carries, h]
  rfl

/-! ## Moved contexts -/

namespace Context

variable {μ : Relocation}

/-- The context of the moved tokens. -/
def relocate (μ : Relocation) : Context → Context
  | group opening closing rest =>
    group (opening.relocate μ.start) (closing.relocate μ.start) (rest.relocate μ)
  | inside opening C closing rest =>
    inside (opening.relocate μ.start) (C.relocate μ) (closing.relocate μ.start) (rest.relocate μ)
  | token t C => token (t.relocate μ.start) (C.relocate μ)
  | after opening body closing C =>
    after (opening.relocate μ.start) (body.relocate μ) (closing.relocate μ.start) (C.relocate μ)

theorem fill_relocate (C : Context) (b : Outline) :
    (C.relocate μ).fill (b.relocate μ) = (C.fill b).relocate μ := by
  induction C with
  | group => rfl
  | inside opening C closing rest ih => rw [relocate, fill, ih, fill, Outline.relocate]
  | token t C ih => rw [relocate, fill, ih, fill, Outline.relocate]
  | after opening body closing C ih => rw [relocate, fill, ih, fill, Outline.relocate]

/-- A context without stray parentheses may be filled with anything else without them. -/
theorem matched_fill_relocate {C : Context} {b b' : Outline} (h : (C.fill b).Matched)
    (h' : b'.Matched) : ((C.relocate μ).fill b').Matched := by
  have around : ((C.fill .nil).relocate μ).Matched :=
    (matched_relocate _).2 (matched_fill.1 h).1
  rw [← fill_relocate] at around
  exact matched_fill.2 ⟨around, h'⟩

theorem before_relocate (C : Context) :
    (C.relocate μ).before = C.before.map (Token.relocate μ.start) := by
  induction C with
  | group => rfl
  | inside opening C closing rest ih => rw [relocate, before, ih, before, List.map_cons]
  | token t C ih => rw [relocate, before, ih, before, List.map_cons]
  | after opening body closing C ih =>
    rw [relocate, before, tokens_relocate, ih, before, List.map_cons, List.map_append,
      List.map_cons]

theorem opening_relocate (C : Context) :
    (C.relocate μ).opening = C.opening.relocate μ.start := by
  induction C with
  | group => rfl
  | inside _ _ _ _ ih | token _ _ ih | after _ _ _ _ ih => exact ih

theorem closing_relocate (C : Context) :
    (C.relocate μ).closing = C.closing.relocate μ.start := by
  induction C with
  | group => rfl
  | inside _ _ _ _ ih | token _ _ ih | after _ _ _ _ ih => exact ih

theorem behind_relocate (C : Context) :
    (C.relocate μ).behind = C.behind.map (Token.relocate μ.start) := by
  induction C with
  | group opening closing rest => exact tokens_relocate rest
  | inside opening C closing rest ih =>
    rw [relocate, behind, ih, tokens_relocate, behind, List.map_append, List.map_cons]
  | token _ _ ih | after _ _ _ _ ih => exact ih

/-- A context without defects may be filled with anything else without defects. -/
theorem defect?_fill {C : Context} {b b' : Outline} {maxDepth depth : Nat}
    (carries : μ.Carries (C.fill .nil).tokens) (h : (C.fill b).defect? maxDepth depth = none)
    (nonblank : b'.isBlank = false)
    (inner : b'.defect? maxDepth (depth + C.level + 1) = none) :
    ((C.relocate μ).fill b').defect? maxDepth depth = none := by
  induction C generalizing depth with
  | group opening closing rest =>
    obtain ⟨-, small, -, outer⟩ := defect?_group h
    have outer := defect?_eq_none_relocate carries.tail.tail outer
    exact defect?_group_eq_none nonblank small inner outer
  | inside opening C closing rest ih =>
    obtain ⟨-, small, filled, outer⟩ := defect?_group h
    rw [fill, tokens] at carries
    have outer := defect?_eq_none_relocate carries.tail.right.tail outer
    have level : depth + (C.level + 1) = depth + 1 + C.level := by omega
    rw [Context.level, level] at inner
    exact defect?_group_eq_none (isBlank_fill _ b') small (ih carries.tail.left filled inner) outer
  | token t C ih =>
    have rest := ih carries.tail (defect?_token h) inner
    obtain ⟨l, i⟩ := t
    cases l with
    | opening | closing => cases h
    | _ => exact rest
  | after opening body closing C ih =>
    obtain ⟨body_nonblank, small, body_defect, rest⟩ := defect?_group h
    rw [fill, tokens] at carries
    have body_defect := defect?_eq_none_relocate carries.tail.left body_defect
    exact defect?_group_eq_none ((isBlank_relocate body).trans body_nonblank) small body_defect
      (ih carries.tail.right.tail rest inner)

/-! ## Items -/

theorem ownTokens_fill (C : Context) (b : Outline) :
    (C.fill b).ownTokens = (C.fill .nil).ownTokens := by
  induction C with
  | group | inside => rfl
  | token t C ih => exact congrArg (t :: ·) ih
  | after _ _ _ _ ih => exact ih

theorem carries_ownTokens {C : Context} (b : Outline) (h : μ.Carries (C.fill .nil).tokens) :
    μ.Carries (C.fill b).ownTokens := by
  rw [ownTokens_fill]
  exact h.mono (ownTokens_subset _)

/-- Filled with something else of the same value, a context has the same items, only moved. -/
theorem itemsOf_fill {C : Context} {b b' : Outline} {p : Polynomial}
    (carries : μ.Carries (C.fill .nil).tokens) (matched : (C.fill b).Matched)
    (value : b.itemsOf >>= valueOf = .ok p) (value' : b'.itemsOf >>= valueOf = .ok p) :
    ((C.relocate μ).fill b').itemsOf = μ.outcome
      (List.map (Item.relocate μ (Operand.relocate μ (Value.relocate μ)))) (C.fill b).itemsOf := by
  induction C with
  | group opening closing rest =>
    have same : b'.itemsOf >>= valueOf = μ.outcome id (b.itemsOf >>= valueOf) := by
      rw [value, value']
      rfl
    exact itemsOf_group_relocate (carries.tail.through List.mem_cons_self) same
      (itemsOf_relocate matched.2.2.2 carries.tail.tail)
  | inside opening C closing rest ih =>
    rw [fill, tokens] at carries
    have filled := ih carries.tail.left matched.2.2.1
    exact itemsOf_group_relocate (carries.tail.right.through List.mem_cons_self)
      (value_relocate_of_items matched.2.2.1 (carries_ownTokens b carries.tail.left) filled)
      (itemsOf_relocate matched.2.2.2 carries.tail.right.tail)
  | token t C ih =>
    exact itemsOf_token_relocate (carries.span List.mem_cons_self) (ih carries.tail matched.2)
  | after opening body closing C ih =>
    rw [fill, tokens] at carries
    exact itemsOf_group_relocate (carries.tail.right.through List.mem_cons_self)
      (value_relocate matched.2.2.1 carries.tail.left)
      (ih carries.tail.right.tail matched.2.2.2)

/-- Filled with something else of the same value, a context has the same value. -/
theorem value_fill {C : Context} {b b' : Outline} {p q : Polynomial}
    (carries : μ.Carries (C.fill .nil).tokens) (matched : (C.fill b).Matched)
    (value : b.itemsOf >>= valueOf = .ok p) (value' : b'.itemsOf >>= valueOf = .ok p)
    (whole : (C.fill b).itemsOf >>= valueOf = .ok q) :
    ((C.relocate μ).fill b').itemsOf >>= valueOf = .ok q := by
  rw [value_relocate_of_items matched (carries_ownTokens b carries)
    (itemsOf_fill carries matched value value'), whole]
  rfl

/-- What has items has a value for the group in it. -/
theorem exists_value_of_fill {C : Context} {b : Outline} {items : List (Item (Operand Value))}
    (h : (C.fill b).itemsOf = .ok items) : ∃ p, b.itemsOf >>= valueOf = .ok p := by
  induction C generalizing items with
  | group opening closing rest =>
    rw [fill, itemsOf_group] at h
    obtain ⟨p, value, -⟩ := exists_ok_of_bind h
    exact ⟨p, value⟩
  | inside opening C closing rest ih =>
    rw [fill, itemsOf_group] at h
    obtain ⟨q, value, -⟩ := exists_ok_of_bind h
    obtain ⟨js, filled, -⟩ := exists_ok_of_bind value
    exact ih filled
  | token t C ih =>
    rw [fill, itemsOf_token] at h
    obtain ⟨js, rest, -⟩ := exists_ok_of_bind h
    exact ih rest
  | after opening body closing C ih =>
    rw [fill, itemsOf_group] at h
    obtain ⟨q, -, h⟩ := exists_ok_of_bind h
    obtain ⟨js, rest, -⟩ := exists_ok_of_bind h
    exact ih rest

end Context

end Expansion.Outline
