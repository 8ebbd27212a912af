import Expansion.Proofs.Sequence

/-!
# Outlines of what is written

**Theorem (`exists_outline`).** Tokens that are written for a formula have an outline without
defects whose items are a phrase for the formula, unless the formula cannot be resolved.

The grammar speaks about tokens other than blanks, and blanks make no difference: an outline without
its blanks (`withoutBlanks`) is the outline of the other tokens, and has the same defects and items.

What the grammar joins stands side by side in the outline. The tokens of a piece are closed, so
they leave the levels around them as they are (`Closed`), and the items on the two sides of an
operator are those of the two sides.
-/

namespace Expansion.Outline

open Phrase

/-! ## Groups are pairs of parentheses -/

/-- Every group starts with an opening parenthesis and ends with a closing one. -/
def Paired : Outline → Prop
  | nil => True
  | token _ rest => rest.Paired
  | group opening body closing rest =>
    opening.lexeme = .opening ∧ closing.lexeme = .closing ∧ body.Paired ∧ rest.Paired

/-- The groups are pairs, and the levels stand before closing parentheses. -/
structure Partial.Paired (p : Partial) : Prop where
  level : p.level.Paired
  around : ∀ level ∈ p.around, level.1.lexeme = .closing ∧ level.2.Paired

theorem paired_push (t : Token) {p : Partial} (h : p.Paired) : (p.push t).Paired := by
  obtain ⟨l, i⟩ := t
  obtain ⟨level, around⟩ := p
  cases l with
  | closing => exact ⟨trivial, List.forall_mem_cons.2 ⟨⟨rfl, h.level⟩, h.around⟩⟩
  | opening =>
    cases around with
    | nil => exact ⟨h.level, h.around⟩
    | cons first around =>
      obtain ⟨⟨closing, rest⟩, around⟩ := List.forall_mem_cons.1 h.around
      exact ⟨⟨rfl, closing, h.level, rest⟩, around⟩
  | _ => exact ⟨h.level, h.around⟩

theorem paired_foldr (ts : List Token) : (ts.foldr Partial.push ⟨nil, []⟩).Paired := by
  induction ts with
  | nil => exact ⟨trivial, nofun⟩
  | cons t ts ih => exact paired_push t ih

theorem Paired.append {o after : Outline} (h : o.Paired) (h' : after.Paired) :
    (o.append after).Paired := by
  induction o with
  | nil => exact h'
  | token t rest ih => exact ih h
  | group opening body closing rest _ ih => exact ⟨h.1, h.2.1, h.2.2.1, ih h.2.2.2⟩

theorem paired_joinLevels {level : Outline} {around : List (Token × Outline)}
    (h : Partial.Paired ⟨level, around⟩) : (joinLevels level around).Paired := by
  induction around generalizing level with
  | nil => exact h.level
  | cons first around ih =>
    obtain ⟨⟨-, rest⟩, around⟩ := List.forall_mem_cons.1 h.around
    exact h.level.append (ih ⟨rest, around⟩)

/-- In the outline of a token list, groups are pairs of parentheses. -/
theorem paired_ofTokens (ts : List Token) : (ofTokens ts).Paired :=
  paired_joinLevels (paired_foldr ts)

/-! ## Outlines without blanks -/

/-- The outline without the blanks in it. -/
def withoutBlanks : Outline → Outline
  | nil => nil
  | token t rest => if t.isBlank then rest.withoutBlanks else token t rest.withoutBlanks
  | group opening body closing rest =>
    group opening body.withoutBlanks closing rest.withoutBlanks

@[simp] theorem withoutBlanks_append (o after : Outline) :
    (o.append after).withoutBlanks = o.withoutBlanks.append after.withoutBlanks := by
  induction o with
  | nil => rfl
  | token t rest ih =>
    rw [append, withoutBlanks, withoutBlanks, ih]
    split <;> rfl
  | group opening body closing rest _ ih =>
    rw [append, withoutBlanks, withoutBlanks, ih]
    rfl

/-- A partial outline without the blanks in it. -/
def Partial.withoutBlanks (p : Partial) : Partial :=
  ⟨p.level.withoutBlanks, p.around.map fun (closing, rest) => (closing, rest.withoutBlanks)⟩

theorem withoutBlanks_push (t : Token) (p : Partial) : (p.push t).withoutBlanks =
    if t.isBlank then p.withoutBlanks else p.withoutBlanks.push t := by
  obtain ⟨l, i⟩ := t
  obtain ⟨level, around⟩ := p
  cases l with
  | opening => cases around <;> rfl
  | _ => rfl

theorem withoutBlanks_foldr (ts : List Token) (p : Partial) :
    (ts.foldr Partial.push p).withoutBlanks =
      (ts.filter (!·.isBlank)).foldr Partial.push p.withoutBlanks := by
  induction ts with
  | nil => rfl
  | cons t ts ih =>
    rw [List.foldr_cons, withoutBlanks_push, ih, List.filter_cons]
    cases t.isBlank <;> rfl

theorem withoutBlanks_joinLevels (level : Outline) {around : List (Token × Outline)}
    (closings : ∀ p ∈ around, p.1.lexeme = .closing) :
    (joinLevels level around).withoutBlanks = joinLevels level.withoutBlanks
      (around.map fun (closing, rest) => (closing, rest.withoutBlanks)) := by
  induction around generalizing level with
  | nil => rfl
  | cons first around ih =>
    obtain ⟨⟨l, i⟩, rest⟩ := first
    obtain ⟨rfl, others⟩ := List.forall_mem_cons.1 closings
    rw [joinLevels, withoutBlanks_append, withoutBlanks, ih rest others]
    rfl

/-- The outline of the tokens that are not blank. -/
theorem withoutBlanks_ofTokens (ts : List Token) :
    (ofTokens ts).withoutBlanks = ofTokens (ts.filter (!·.isBlank)) := by
  have foldr := withoutBlanks_foldr ts ⟨nil, []⟩
  have closings := fun p hp => ((paired_foldr ts).around p hp).1
  rw [ofTokens, withoutBlanks_joinLevels _ closings, ofTokens]
  exact congrArg (fun p : Partial => joinLevels p.level p.around) foldr

@[simp] theorem isBlank_withoutBlanks (o : Outline) : o.withoutBlanks.isBlank = o.isBlank := by
  induction o with
  | nil | group => rfl
  | token t rest ih =>
    rw [withoutBlanks, isBlank, ← ih]
    cases h : t.isBlank <;> simp [isBlank, h]

@[simp] theorem defect?_withoutBlanks (maxDepth depth : Nat) (o : Outline) :
    o.withoutBlanks.defect? maxDepth depth = o.defect? maxDepth depth := by
  induction o generalizing depth with
  | nil => rfl
  | token t rest ih =>
    obtain ⟨l, i⟩ := t
    cases l <;> simp [withoutBlanks, defect?, ih, Token.isBlank, Lexeme.isBlank]
  | group opening body closing rest ihBody ihRest =>
    simp only [withoutBlanks, defect?, isBlank_withoutBlanks, ihBody, ihRest]

/-- The items of an outline, or the error for them. -/
def itemsOf (o : Outline) : Except Error (List (Item (Operand Value))) := o.items.outcome

@[simp] theorem itemsOf_token (t : Token) (rest : Outline) :
    (token t rest).itemsOf = rest.itemsOf >>= fun js => .ok (Item.push t js) := by
  simp only [itemsOf, items, Logged.outcome_bind, Logged.outcome_pure]

@[simp] theorem itemsOf_group (opening : Token) (body : Outline) (closing : Token)
    (rest : Outline) :
    (group opening body closing rest).itemsOf = body.itemsOf >>= valueOf >>= fun p =>
      rest.itemsOf >>= fun js =>
        .ok (.operand (.value ⟨p, opening.span.through closing.span⟩) :: js) := by
  simp only [itemsOf, items, Logged.outcome_bind, Logged.outcome_pure, Logged.outcome_ofExcept,
    Logged.outcome_write, bind_assoc]
  rfl

@[simp] theorem itemsOf_withoutBlanks (o : Outline) : o.withoutBlanks.itemsOf = o.itemsOf := by
  induction o with
  | nil => rfl
  | token t rest ih =>
    obtain ⟨l, i⟩ := t
    cases l with
    | blanks cs =>
      show rest.withoutBlanks.itemsOf = _
      rw [ih, itemsOf_token]
      cases rest.itemsOf <;> rfl
    | _ => exact (itemsOf_token _ _).trans (ih ▸ (itemsOf_token _ _).symm)
  | group opening body closing rest ihBody ihRest =>
    rw [withoutBlanks, itemsOf_group, ihBody, ihRest, itemsOf_group]

/-! ## Outlines side by side -/

@[simp] theorem append_nil (o : Outline) : o.append nil = o := by
  induction o with
  | nil => rfl
  | token t rest ih => rw [append, ih]
  | group opening body closing rest _ ih => rw [append, ih]

@[simp] theorem append_assoc (o after last : Outline) :
    (o.append after).append last = o.append (after.append last) := by
  induction o with
  | nil => rfl
  | token t rest ih => rw [append, append, append, ih]
  | group opening body closing rest _ ih => rw [append, append, append, ih]

@[simp] theorem isBlank_append (o after : Outline) :
    (o.append after).isBlank = (o.isBlank && after.isBlank) := by
  induction o with
  | nil => rfl
  | token t rest ih => rw [append, isBlank, isBlank, ih, Bool.and_assoc]
  | group => rfl

@[simp] theorem defect?_append (maxDepth depth : Nat) (o after : Outline) :
    (o.append after).defect? maxDepth depth =
      (o.defect? maxDepth depth).or (after.defect? maxDepth depth) := by
  induction o with
  | nil => rfl
  | token t rest ih =>
    obtain ⟨l, i⟩ := t
    cases l <;> simp only [append, defect?, ih, Option.some_or]
  | group opening body closing rest _ ih =>
    simp only [append, defect?, ih]
    split
    · rfl
    split
    · rfl
    · exact (Option.or_assoc ..).symm

theorem push_append {ν : Type} (t : Token) (items : List (Item (Operand ν))) (op : Operator)
    (place : Span) (others : List (Item (Operand ν))) :
    Item.push t (items ++ .operator op place :: others) =
      Item.push t items ++ .operator op place :: others := by
  obtain ⟨l, i⟩ := t
  cases items with
  | nil => cases l <;> rfl
  | cons item items =>
    cases item with
    | operator => cases l <;> rfl
    | operand a => cases a <;> cases l <;> rfl

/-- The items around an operator are those of its two sides. -/
theorem itemsOf_append (o after : Outline) (op : Operator) (i : Nat) :
    (o.append (token ⟨.operator op, i⟩ after)).itemsOf =
      o.itemsOf >>= fun js => after.itemsOf >>= fun ks =>
        .ok (js ++ .operator op (Token.span ⟨.operator op, i⟩) :: ks) := by
  induction o with
  | nil => exact itemsOf_token _ _
  | token t rest ih =>
    rw [append, itemsOf_token, ih, itemsOf_token]
    cases rest.itemsOf with
    | error e => rfl
    | ok js =>
      cases after.itemsOf with
      | error e => rfl
      | ok ks => exact congrArg Except.ok (push_append t js op _ ks)
  | group opening body closing rest _ ih =>
    rw [append, itemsOf_group, ih, itemsOf_group]
    cases body.itemsOf >>= valueOf with
    | error e => rfl
    | ok p =>
      cases rest.itemsOf with
      | error e => rfl
      | ok js => cases after.itemsOf <;> rfl

/-- The tokens have the outline, whatever stands around them. -/
def Closed (ts : List Token) (o : Outline) : Prop :=
  ∀ p : Partial, ts.foldr Partial.push p = ⟨o.append p.level, p.around⟩

namespace Closed

variable {ts us : List Token} {o after : Outline}

theorem nil : Closed [] nil := fun _ => rfl

theorem token {t : Token} (opening : t.lexeme ≠ .opening) (closing : t.lexeme ≠ .closing)
    (h : Closed ts o) : Closed (t :: ts) (token t o) := by
  intro p
  rw [List.foldr_cons, h p]
  obtain ⟨l, i⟩ := t
  cases l with
  | opening => exact absurd rfl opening
  | closing => exact absurd rfl closing
  | _ => rfl

theorem append (h : Closed ts o) (h' : Closed us after) : Closed (ts ++ us) (o.append after) := by
  intro p
  rw [List.foldr_append, h' p, h, append_assoc]

theorem group (i j : Nat) (h : Closed ts o) :
    Closed (⟨.opening, i⟩ :: (ts ++ [⟨.closing, j⟩]))
      (group ⟨.opening, i⟩ o ⟨.closing, j⟩ .nil) := by
  intro p
  rw [List.foldr_cons, List.foldr_append]
  show Partial.push _ (ts.foldr Partial.push ⟨.nil, (⟨.closing, j⟩, p.level) :: p.around⟩) = _
  rw [h, append_nil]
  rfl

theorem ofTokens_eq (h : Closed ts o) : ofTokens ts = o := by
  rw [ofTokens, h]
  exact append_nil o

end Closed

/-! ## The outline of what is written for a formula -/

/-- The phrases that pieces of a category have as their items. -/
def phrase : Category → Phrase (Operand Value)
  | .factor => Signed (Operand.Stands Value.StandsForGroup)
  | .product => Product (Signed (Operand.Stands Value.StandsForGroup))
  | .sum => Sum (Product (Signed (Operand.Stands Value.StandsForGroup)))

/-- The outline of tokens that are written for the formula, as a piece of the category. -/
structure Outlines (c : Category) (f : Formula) (ts : List Token) (o : Outline) : Prop where
  closed : Closed ts o
  nonblank : o.isBlank = false
  defect : ∀ maxDepth depth, depth + f.depth ≤ maxDepth → o.defect? maxDepth depth = none
  items : Yields f.Resolves o.itemsOf (phrase c f)

namespace Outlines

variable {c c' : Category} {f g : Formula} {ts us : List Token} {o after : Outline}

theorem group (h : Outlines .sum f ts o) (lettered : f.Lettered) (i j : Nat) :
    Outlines .factor (.group f) (⟨.opening, i⟩ :: (ts ++ [⟨.closing, j⟩]))
      (group ⟨.opening, i⟩ o ⟨.closing, j⟩ .nil) where
  closed := h.closed.group i j
  nonblank := rfl
  defect := fun maxDepth depth small => by
    rw [Formula.depth] at small
    have body := h.defect maxDepth (depth + 1) (by omega)
    have level : ¬maxDepth ≤ depth := by omega
    simp [defect?, h.nonblank, level, body]
  items := by
    have value : Computes f.polynomial? (o.itemsOf >>= valueOf) :=
      (h.items.mono (Formula.resolves_of_polynomial? lettered) fun _ => id).bind
        fun items phrase => valueOf_computes phrase
    rw [itemsOf_group]
    apply Yields.bind value
    intro p hp
    exact .ok (.operand (.value ⟨⟨lettered, hp⟩, Nat.succ_ne_zero _⟩))

theorem sign (h : Outlines .factor f ts o) (op : Operator) (i : Nat) (g : Formula)
    (depth : g.depth = f.depth) (resolves : g.Resolves → f.Resolves)
    (phrase : ∀ items place, phrase .factor f items →
      phrase .factor g (.operator op place :: items)) :
    Outlines .factor g (⟨.operator op, i⟩ :: ts) (token ⟨.operator op, i⟩ o) where
  closed := h.closed.token nofun nofun
  nonblank := rfl
  defect := fun maxDepth k small => h.defect maxDepth k (depth ▸ small)
  items := by
    rw [itemsOf_token]
    exact (h.items.mono resolves fun _ => id).bind fun items h => .ok (phrase _ _ h)

theorem operator (h : Outlines c f ts o) (h' : Outlines c' g us after) (op : Operator) (i : Nat)
    (f' : Formula) (depth : f'.depth = max f.depth g.depth)
    (resolves : f'.Resolves → f.Resolves ∧ g.Resolves)
    (phrase : ∀ items others place, phrase c f items → phrase c' g others →
      phrase c f' (items ++ .operator op place :: others)) :
    Outlines c f' (ts ++ ⟨.operator op, i⟩ :: us)
      (o.append (token ⟨.operator op, i⟩ after)) where
  closed := h.closed.append (h'.closed.token nofun nofun)
  nonblank := by rw [isBlank_append, h.nonblank, Bool.false_and]
  defect := fun maxDepth k small => by
    rw [depth] at small
    rw [defect?_append, h.defect maxDepth k (by omega)]
    exact h'.defect maxDepth k (by omega)
  items := by
    rw [itemsOf_append]
    exact (h.items.both h'.items fun _ _ left right => .ok (phrase _ _ _ left right)).mono resolves
      fun _ => id

end Outlines

/-- The token is a letter or a run of digits. -/
def IsWord (t : Token) : Prop := (∃ x, t.lexeme = .letter x) ∨ ∃ ds, t.lexeme = .digits ds

theorem isWord_of_writesPowers {ps : List (Char × Nat)} {ts : List Token} (h : WritesPowers ps ts) :
    ∀ t ∈ ts, IsWord t := by
  induction h with
  | nil => exact nofun
  | bare _ _ ih => exact List.forall_mem_cons.2 ⟨.inl ⟨_, rfl⟩, ih⟩
  | raised _ _ ih =>
    exact List.forall_mem_cons.2 ⟨.inl ⟨_, rfl⟩, List.forall_mem_cons.2 ⟨.inr ⟨_, rfl⟩, ih⟩⟩

theorem isWord_of_writesMonomial {c : Nat} {ps : List (Char × Nat)} {ts : List Token}
    (h : WritesMonomial c ps ts) : ts ≠ [] ∧ ∀ t ∈ ts, IsWord t := by
  cases h with
  | bare powers nonempty _ => exact ⟨nonempty, isWord_of_writesPowers powers⟩
  | scaled powers _ =>
    exact ⟨List.cons_ne_nil _ _,
      List.forall_mem_cons.2 ⟨.inr ⟨_, rfl⟩, isWord_of_writesPowers powers⟩⟩

/-- The tokens as a single run, if there are any. -/
def runOf : List Token → List (Item (Operand Value))
  | [] => []
  | t :: ts => [.operand (.run ⟨t, ts⟩)]

theorem push_runOf {t : Token} (word : IsWord t) (ts : List Token) :
    Item.push t (runOf ts) = runOf (t :: ts) := by
  obtain ⟨l, i⟩ := t
  rcases word with ⟨x, rfl⟩ | ⟨ds, rfl⟩ <;> cases ts <;> rfl

/-- Letters and digits side by side have no structure, and are one run. -/
theorem exists_outline_words {ts : List Token} (words : ∀ t ∈ ts, IsWord t) :
    ∃ o, Closed ts o ∧ o.isBlank = ts.isEmpty ∧
      (∀ maxDepth depth, o.defect? maxDepth depth = none) ∧ o.itemsOf = .ok (runOf ts) := by
  induction ts with
  | nil => exact ⟨nil, .nil, rfl, fun _ _ => rfl, rfl⟩
  | cons t ts ih =>
    obtain ⟨word, words⟩ := List.forall_mem_cons.1 words
    obtain ⟨o, closed, -, defect, items⟩ := ih words
    have items : (token t o).itemsOf = .ok (runOf (t :: ts)) := by
      rw [itemsOf_token, items, ← push_runOf word]
      rfl
    obtain ⟨l, i⟩ := t
    rcases word with ⟨x, rfl⟩ | ⟨ds, rfl⟩ <;>
      exact ⟨_, closed.token nofun nofun, rfl, defect, items⟩

theorem exists_outline_monomial {c : Nat} {ps : List (Char × Nat)} {ts : List Token}
    (h : WritesMonomial c ps ts) : ∃ o, Outlines .factor (.monomial c ps) ts o := by
  obtain ⟨nonempty, words⟩ := isWord_of_writesMonomial h
  obtain ⟨o, closed, blank, defect, items⟩ := exists_outline_words words
  obtain ⟨t, ts, rfl⟩ := List.exists_cons_of_ne_nil nonempty
  refine ⟨o, closed, blank, fun maxDepth depth _ => defect maxDepth depth, ?_⟩
  rw [items]
  exact .ok (.operand (.run h))

/-- Tokens that are written for a formula have an outline without defects, whose items are a phrase
for the formula. -/
theorem exists_outline {c : Category} {f : Formula} {ts : List Token} (h : Derives c f ts) :
    ∃ o, Outlines c f ts o := by
  induction h with
  | monomial h => exact exists_outline_monomial h
  | group derives ih =>
    obtain ⟨o, h⟩ := ih
    exact ⟨_, h.group derives.lettered _ _⟩
  | plus _ ih =>
    obtain ⟨o, h⟩ := ih
    exact ⟨_, h.sign .add _ _ rfl id fun _ _ => .plus⟩
  | minus _ ih =>
    obtain ⟨o, h⟩ := ih
    exact ⟨_, h.sign .sub _ _ rfl Formula.Resolves.minus fun _ _ => .minus⟩
  | factor _ ih =>
    obtain ⟨o, h⟩ := ih
    exact ⟨o, h.closed, h.nonblank, h.defect, h.items.mono id fun _ => .factor⟩
  | product _ ih =>
    obtain ⟨o, h⟩ := ih
    exact ⟨o, h.closed, h.nonblank, h.defect, h.items.mono id fun _ => .product⟩
  | mul _ _ ih ih' =>
    obtain ⟨o, h⟩ := ih
    obtain ⟨after, h'⟩ := ih'
    exact ⟨_, h.operator h' .mul _ _ rfl Formula.Resolves.mul fun _ _ _ => .mul⟩
  | add _ _ ih ih' =>
    obtain ⟨o, h⟩ := ih
    obtain ⟨after, h'⟩ := ih'
    exact ⟨_, h.operator h' .add _ _ rfl Formula.Resolves.add fun _ _ _ => .add⟩
  | sub _ _ ih ih' =>
    obtain ⟨o, h⟩ := ih
    obtain ⟨after, h'⟩ := ih'
    exact ⟨_, h.operator h' .sub _ _ rfl Formula.Resolves.sub fun _ _ _ => .sub⟩

end Expansion.Outline
