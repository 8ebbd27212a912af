import Expansion.Proofs.Derivation
import Expansion.Proofs.Relocation
import Expansion.Proofs.Replacement

/-!
# Moved outlines

**Theorem (`itemsOf_relocate`).** The items of a moved outline are the moved items, if each token is
as long as before and words that touch are the same as before.

**Theorem (`ofTokens_tokens`).** An outline without stray parentheses is the outline of its tokens.

Only words are in runs: tokens other than blanks, operators and parentheses. So it does not matter
whether a word still touches an operator or a parenthesis.
-/

namespace Expansion

/-- The token is neither blank nor an operator nor a parenthesis. -/
def Token.IsPlain (t : Token) : Prop :=
  t.isBlank = false ∧ t.lexeme.isOperator = false ∧ ¬t.IsParenthesis

/-- The tokens keep their lengths, and plain ones that touch are the same as before. -/
structure Relocation.Carries (μ : Relocation) (ts : List Token) : Prop where
  stop : ∀ t ∈ ts, (t.relocate μ.start).stop = μ.stop t.stop
  touching : ∀ t ∈ ts, ∀ u ∈ ts, t.IsPlain → u.IsPlain →
    (μ.stop t.stop = μ.start u.start ↔ t.stop = u.start)

namespace Relocation.Carries

variable {μ : Relocation} {ts us : List Token}

theorem mono (h : μ.Carries us) (sub : ts ⊆ us) : μ.Carries ts :=
  ⟨fun t ht => h.stop t (sub ht), fun t ht u hu => h.touching t (sub ht) u (sub hu)⟩

theorem tail {t : Token} (h : μ.Carries (t :: ts)) : μ.Carries ts :=
  h.mono (List.subset_cons_self t ts)

theorem left (h : μ.Carries (ts ++ us)) : μ.Carries ts := h.mono (List.subset_append_left ts us)

theorem right (h : μ.Carries (ts ++ us)) : μ.Carries us := h.mono (List.subset_append_right ts us)

theorem span {t : Token} (h : μ.Carries ts) (ht : t ∈ ts) :
    (t.relocate μ.start).span = t.span.relocate μ :=
  congrArg (Span.mk (μ.start t.start)) (h.stop t ht)

theorem through {opening closing : Token} (h : μ.Carries ts) (mem : closing ∈ ts) :
    (opening.relocate μ.start).span.through (closing.relocate μ.start).span =
      (opening.span.through closing.span).relocate μ :=
  congrArg (Span.mk (μ.start opening.start)) (h.stop closing mem)

theorem keeps (h : μ.Carries ts) (plain : ∀ t ∈ us, t ∈ ts ∧ t.IsPlain) : μ.Keeps us where
  stop := fun t ht => h.stop t (plain t ht).1
  touching := fun t ht u hu =>
    h.touching t (plain t ht).1 u (plain u hu).1 (plain t ht).2 (plain u hu).2

end Relocation.Carries

/-- Moving everything by the same distance keeps lengths and neighbours. -/
theorem carries_shift (n : Nat) (ts : List Token) : (Relocation.shift n).Carries ts where
  stop := fun t _ => Nat.add_right_comm t.start n (byteLength t.chars)
  touching := fun _ _ _ _ _ _ => Nat.add_right_cancel_iff

variable {μ : Relocation}

/-! ## Items -/

namespace Item

/-- The runs consist of plain tokens of `ts`. -/
def RunsFrom (ts : List Token) (items : List (Item (Operand Value))) : Prop :=
  ∀ r, operand (.run r) ∈ items → ∀ t ∈ r.tokens, t ∈ ts ∧ t.IsPlain

variable {ts us : List Token} {items : List (Item (Operand Value))} {t : Token}

theorem RunsFrom.keptBy (h : RunsFrom ts items) (carries : μ.Carries ts) : KeptBy μ items :=
  fun r hr => carries.keeps (h r hr)

theorem RunsFrom.mono (h : RunsFrom ts items) (sub : ts ⊆ us) : RunsFrom us items :=
  fun r hr t ht => (h r hr t ht).imp (fun mem => sub mem) id

theorem RunsFrom.cons {item : Item (Operand Value)} (h : RunsFrom ts items)
    (first : ∀ r, operand (.run r) = item → ∀ t ∈ r.tokens, t ∈ ts ∧ t.IsPlain) :
    RunsFrom ts (item :: items) := by
  intro r hr
  rcases List.mem_cons.1 hr with eq | mem
  · exact first r eq
  · exact h r mem

theorem RunsFrom.push (h : RunsFrom ts items) (stray : ¬t.IsParenthesis) :
    RunsFrom (t :: ts) (push t items) := by
  have h := h.mono (List.subset_cons_self t ts)
  rcases Outline.push_cases t items with
    ⟨-, eq⟩ | ⟨nonblank, ⟨op, i, -, eq⟩ | ⟨unsigned, ⟨r, rest, rfl, eq⟩ | ⟨-, eq⟩⟩⟩
  all_goals rw [eq]
  · exact h
  · exact h.cons nofun
  · have others : RunsFrom (t :: ts) rest := fun q hq => h q (List.mem_cons_of_mem _ hq)
    refine others.cons fun q hq => ?_
    cases hq
    exact List.forall_mem_cons.2
      ⟨⟨List.mem_cons_self, nonblank, unsigned, stray⟩, h r List.mem_cons_self⟩
  · refine h.cons fun q hq => ?_
    cases hq
    exact List.forall_mem_singleton.2 ⟨List.mem_cons_self, nonblank, unsigned, stray⟩

theorem push_relocate {ν ν' : Type} (f : ν → ν')
    (span : (t.relocate μ.start).span = t.span.relocate μ) (items : List (Item (Operand ν))) :
    push (t.relocate μ.start) (items.map (relocate μ (Operand.relocate μ f))) =
      (push t items).map (relocate μ (Operand.relocate μ f)) := by
  obtain ⟨l, i⟩ := t
  cases l with
  | blanks cs => rfl
  | operator op => exact congrArg (fun s => operator op s :: _) span
  | _ =>
    match items with
    | [] | .operator _ _ :: _ | .operand (.value _) :: _ | .operand (.run _) :: _ => rfl

end Item

/-! ## Outlines -/

namespace Outline

/-- Groups are pairs of parentheses, and there are no other parentheses. -/
def Matched : Outline → Prop
  | nil => True
  | token t rest => ¬t.IsParenthesis ∧ rest.Matched
  | group opening body closing rest =>
    opening.lexeme = .opening ∧ closing.lexeme = .closing ∧ body.Matched ∧ rest.Matched

theorem Paired.matched {maxDepth depth : Nat} {o : Outline} (h : o.Paired)
    (defect : o.defect? maxDepth depth = none) : o.Matched := by
  induction o generalizing depth with
  | nil => trivial
  | token t rest ih =>
    refine ⟨?_, ih h (defect?_token defect)⟩
    obtain ⟨l, i⟩ := t
    rintro (eq | eq) <;> cases eq <;> cases defect
  | group opening body closing rest ihBody ihRest =>
    obtain ⟨opens, closes, body_paired, rest_paired⟩ := h
    obtain ⟨-, -, body_defect, rest_defect⟩ := defect?_group defect
    exact ⟨opens, closes, ihBody body_paired body_defect, ihRest rest_paired rest_defect⟩

theorem Matched.closed {o : Outline} (h : o.Matched) : Closed o.tokens o := by
  induction o with
  | nil => exact .nil
  | token t rest ih => exact .token (fun eq => h.1 (.inl eq)) (fun eq => h.1 (.inr eq)) (ih h.2)
  | group opening body closing rest ihBody ihRest =>
    obtain ⟨l, i⟩ := opening
    obtain ⟨l', j⟩ := closing
    obtain ⟨rfl, rfl, body_matched, rest_matched⟩ := h
    have whole := ((ihBody body_matched).group i j).append (ihRest rest_matched)
    rwa [List.cons_append, List.append_assoc] at whole

/-- An outline without stray parentheses is the outline of its tokens. -/
theorem Matched.ofTokens_tokens {o : Outline} (h : o.Matched) : ofTokens o.tokens = o :=
  h.closed.ofTokens_eq

@[simp] theorem tokens_relocate (o : Outline) :
    (o.relocate μ).tokens = o.tokens.map (Token.relocate μ.start) := by
  induction o with
  | nil => rfl
  | token t rest ih => rw [relocate, tokens, ih, tokens, List.map_cons]
  | group opening body closing rest ihBody ihRest =>
    rw [relocate, tokens, ihBody, ihRest, tokens, List.map_cons, List.map_append, List.map_cons]

@[simp] theorem isBlank_relocate (o : Outline) : (o.relocate μ).isBlank = o.isBlank := by
  induction o with
  | nil | group => rfl
  | token t rest ih => exact congrArg (t.isBlank && ·) ih

@[simp] theorem matched_relocate (o : Outline) : (o.relocate μ).Matched ↔ o.Matched := by
  induction o with
  | nil => rfl
  | token t rest ih => exact and_congr Iff.rfl ih
  | group opening body closing rest ihBody ihRest =>
    exact and_congr Iff.rfl (and_congr Iff.rfl (and_congr ihBody ihRest))

@[simp] theorem relocate_append (o after : Outline) :
    (o.append after).relocate μ = (o.relocate μ).append (after.relocate μ) := by
  induction o with
  | nil => rfl
  | token t rest ih => rw [append, relocate, relocate, append, ih]
  | group opening body closing rest _ ih => rw [append, relocate, relocate, append, ih]

/-- The partial outline of the moved tokens. -/
def Partial.relocate (μ : Relocation) (p : Partial) : Partial :=
  ⟨p.level.relocate μ,
    p.around.map fun (closing, rest) => (closing.relocate μ.start, rest.relocate μ)⟩

theorem push_relocate (t : Token) (p : Partial) :
    (p.relocate μ).push (t.relocate μ.start) = (p.push t).relocate μ := by
  obtain ⟨l, i⟩ := t
  obtain ⟨level, around⟩ := p
  cases l with
  | opening => cases around <;> rfl
  | _ => rfl

theorem joinLevels_relocate (level : Outline) (around : List (Token × Outline)) :
    joinLevels (level.relocate μ)
        (around.map fun (closing, rest) => (closing.relocate μ.start, rest.relocate μ)) =
      (joinLevels level around).relocate μ := by
  induction around generalizing level with
  | nil => rfl
  | cons first around ih =>
    rw [List.map_cons, joinLevels, ih, joinLevels, relocate_append]
    rfl

/-- The outline of moved tokens is the moved outline. -/
theorem ofTokens_relocate (ts : List Token) :
    ofTokens (ts.map (Token.relocate μ.start)) = (ofTokens ts).relocate μ := by
  have foldr : (ts.map (Token.relocate μ.start)).foldr Partial.push ⟨nil, []⟩ =
      (ts.foldr Partial.push ⟨nil, []⟩).relocate μ := by
    induction ts with
    | nil => rfl
    | cons t ts ih => rw [List.map_cons, List.foldr_cons, ih, push_relocate, List.foldr_cons]
  rw [ofTokens, foldr]
  exact joinLevels_relocate _ _

/-- A moved outline has the moved defect. -/
theorem defect?_relocate (maxDepth depth : Nat) {o : Outline} (h : μ.Carries o.tokens) :
    (o.relocate μ).defect? maxDepth depth =
      (o.defect? maxDepth depth).map (Error.relocate μ) := by
  induction o generalizing depth with
  | nil => rfl
  | token t rest ih =>
    have span := h.span List.mem_cons_self
    have rest := ih depth h.tail
    obtain ⟨l, i⟩ := t
    cases l with
    | opening => exact congrArg (fun s => some (Error.unclosed s)) span
    | closing => exact congrArg (fun s => some (Error.unopened s)) span
    | _ => exact rest
  | group opening body closing rest ihBody ihRest =>
    rw [tokens] at h
    rw [relocate, defect?, isBlank_relocate, ihBody (depth + 1) h.tail.left,
      ihRest depth h.tail.right.tail, h.tail.right.through List.mem_cons_self, defect?]
    split
    · rfl
    split
    · rfl
    · cases body.defect? maxDepth (depth + 1) <;> rfl

/-- The tokens of an outline that are not in its groups. -/
def ownTokens : Outline → List Token
  | nil => []
  | token t rest => t :: rest.ownTokens
  | group _ _ _ rest => rest.ownTokens

theorem ownTokens_subset (o : Outline) : o.ownTokens ⊆ o.tokens := by
  induction o with
  | nil => exact List.nil_subset _
  | token t rest ih => exact List.cons_subset_cons t ih
  | group opening body closing rest _ ih =>
    exact List.subset_cons_of_subset _
      (List.subset_append_of_subset_right _ (List.subset_cons_of_subset _ ih))

/-- The runs of an outline are made of its own tokens. -/
theorem runsFrom_itemsOf {o : Outline} (matched : o.Matched)
    {items : List (Item (Operand Value))} (h : o.itemsOf = .ok items) :
    Item.RunsFrom o.ownTokens items := by
  induction o generalizing items with
  | nil =>
    cases h
    exact nofun
  | token t rest ih =>
    rw [itemsOf_token] at h
    obtain ⟨js, rest_items, eq⟩ := exists_ok_of_bind h
    cases eq
    exact (ih matched.2 rest_items).push matched.1
  | group opening body closing rest _ ih =>
    rw [itemsOf_group] at h
    obtain ⟨p, -, h⟩ := exists_ok_of_bind h
    obtain ⟨js, rest_items, eq⟩ := exists_ok_of_bind h
    cases eq
    exact (ih matched.2.2.2 rest_items).cons nofun

theorem value_relocate_of_items {o o' : Outline} (matched : o.Matched) (h : μ.Carries o.ownTokens)
    (items : o'.itemsOf = μ.outcome
      (List.map (Item.relocate μ (Operand.relocate μ (Value.relocate μ)))) o.itemsOf) :
    o'.itemsOf >>= valueOf = μ.outcome id (o.itemsOf >>= valueOf) := by
  rw [items]
  exact Relocation.outcome_bind fun js eq =>
    valueOf_relocate ((runsFrom_itemsOf matched eq).keptBy h)

theorem itemsOf_token_relocate {t : Token} {rest rest' : Outline}
    (span : (t.relocate μ.start).span = t.span.relocate μ)
    (items : rest'.itemsOf = μ.outcome
      (List.map (Item.relocate μ (Operand.relocate μ (Value.relocate μ)))) rest.itemsOf) :
    (token (t.relocate μ.start) rest').itemsOf = μ.outcome
      (List.map (Item.relocate μ (Operand.relocate μ (Value.relocate μ))))
      (token t rest).itemsOf := by
  rw [itemsOf_token, items, itemsOf_token]
  exact Relocation.outcome_bind fun js _ => congrArg Except.ok (Item.push_relocate _ span js)

theorem itemsOf_group_relocate {opening closing : Token} {body body' rest rest' : Outline}
    (place : (opening.relocate μ.start).span.through (closing.relocate μ.start).span =
      (opening.span.through closing.span).relocate μ)
    (value : body'.itemsOf >>= valueOf = μ.outcome id (body.itemsOf >>= valueOf))
    (items : rest'.itemsOf = μ.outcome
      (List.map (Item.relocate μ (Operand.relocate μ (Value.relocate μ)))) rest.itemsOf) :
    (group (opening.relocate μ.start) body' (closing.relocate μ.start) rest').itemsOf = μ.outcome
      (List.map (Item.relocate μ (Operand.relocate μ (Value.relocate μ))))
      (group opening body closing rest).itemsOf := by
  rw [itemsOf_group, value, items, place, itemsOf_group]
  exact Relocation.outcome_bind fun p _ => Relocation.outcome_bind fun js _ => rfl

/-- The items of a moved outline are the moved items. -/
theorem itemsOf_relocate {o : Outline} (matched : o.Matched) (h : μ.Carries o.tokens) :
    (o.relocate μ).itemsOf =
      μ.outcome (List.map (Item.relocate μ (Operand.relocate μ (Value.relocate μ)))) o.itemsOf := by
  induction o with
  | nil => rfl
  | token t rest ih =>
    exact itemsOf_token_relocate (h.span List.mem_cons_self) (ih matched.2 h.tail)
  | group opening body closing rest ihBody ihRest =>
    obtain ⟨-, -, body_matched, rest_matched⟩ := matched
    rw [tokens] at h
    have own := h.tail.left.mono body.ownTokens_subset
    exact itemsOf_group_relocate (h.tail.right.through List.mem_cons_self)
      (value_relocate_of_items body_matched own (ihBody body_matched h.tail.left))
      (ihRest rest_matched h.tail.right.tail)

/-- The value of a moved outline is the same, and an error is moved. -/
theorem value_relocate {o : Outline} (matched : o.Matched) (h : μ.Carries o.tokens) :
    (o.relocate μ).itemsOf >>= valueOf = μ.outcome id (o.itemsOf >>= valueOf) :=
  value_relocate_of_items matched (h.mono o.ownTokens_subset) (itemsOf_relocate matched h)

end Outline

end Expansion
