import Expansion.Item
import Expansion.Proofs.Meaning
import Expansion.Proofs.Outcome

/-!
# Phrases

A *phrase* is a list of items that is written for a formula, where it is given which operands stand
for which formulas. Phrases are built in layers: an operand alone (`Phrase.Single`), an operand with
signs in front (`Phrase.Signed`), products of phrases (`Phrase.Product`) and sums of phrases
(`Phrase.Sum`). The sequence of items that a text has is a sum of products of signed operands, and
each pass over it removes one of the layers.

A pass (`Pass`) goes from left to right and splits at some of the operators: what it makes of the
items before such an operator does not depend on those after it. A pass that takes one kind of
phrase to another therefore takes products to products and sums to sums (`Pass.Takes.product`,
`Pass.Takes.sum`).
-/

namespace Expansion

variable {α β : Type}

/-- A kind of phrase: which items are written for a formula. -/
abbrev Phrase (α : Type) := Formula → List (Item α) → Prop

namespace Phrase

/-- An operand that stands for the formula. -/
inductive Single (R : α → Formula → Prop) : Phrase α
  | operand {f : Formula} {a : α} : R a f → Single R f [.operand a]

/-- An operand with any number of signs in front. -/
inductive Signed (R : α → Formula → Prop) : Phrase α
  | operand {f : Formula} {a : α} : R a f → Signed R f [.operand a]
  | plus {f : Formula} {items : List (Item α)} {place : Span} :
      Signed R f items → Signed R (.plus f) (.operator .add place :: items)
  | minus {f : Formula} {items : List (Item α)} {place : Span} :
      Signed R f items → Signed R (.minus f) (.operator .sub place :: items)

/-- Phrases with `*` between them. -/
inductive Product (F : Phrase α) : Phrase α
  | factor {f : Formula} {items : List (Item α)} : F f items → Product F f items
  | mul {f g : Formula} {items others : List (Item α)} {place : Span} :
      Product F f items → F g others →
      Product F (.mul f g) (items ++ .operator .mul place :: others)

/-- Phrases with `+` or `-` between them. -/
inductive Sum (F : Phrase α) : Phrase α
  | product {f : Formula} {items : List (Item α)} : F f items → Sum F f items
  | add {f g : Formula} {items others : List (Item α)} {place : Span} :
      Sum F f items → F g others → Sum F (.add f g) (items ++ .operator .add place :: others)
  | sub {f g : Formula} {items others : List (Item α)} {place : Span} :
      Sum F f items → F g others → Sum F (.sub f g) (items ++ .operator .sub place :: others)

end Phrase

/-- A pass over a list of items. It splits at an operator if it can go on after it as from the
start. -/
structure Pass (α β : Type) where
  /-- What becomes of items at whose start an operand may stand. -/
  run : List (Item α) → Except Error (List (Item β))
  /-- What becomes of items that stand after an operand. -/
  after : List (Item α) → Except Error (List (Item β))
  splits : Operator → Prop
  after_nil : after [] = .ok []
  after_operator : ∀ {op}, splits op → ∀ place rest,
    after (.operator op place :: rest) = run rest >>= fun js => .ok (.operator op place :: js)

namespace Pass

variable {P : Pass α β} {F : Phrase α} {G : Phrase β} {items others : List (Item α)}
  {x y : Except Error (List (Item β))}

/-- The items are at an end, or at an operator that the pass splits at. -/
inductive Ends (P : Pass α β) : List (Item α) → Prop
  | nil : P.Ends []
  | operator {op : Operator} {place : Span} {rest : List (Item α)} :
      P.splits op → P.Ends (.operator op place :: rest)

/-- The pass makes `x` of the items, whatever stands after them. -/
def Maps (P : Pass α β) (items : List (Item α)) (x : Except Error (List (Item β))) : Prop :=
  ∀ rest, P.Ends rest →
    P.run (items ++ rest) = x >>= fun js => P.after rest >>= fun ks => .ok (js ++ ks)

theorem Maps.run_eq (h : P.Maps items x) : P.run items = x := by
  have eq := h [] .nil
  rw [List.append_nil, P.after_nil] at eq
  rw [eq]
  cases x with
  | error e => rfl
  | ok js => exact congrArg Except.ok (List.append_nil js)

/-- The pass treats the items on the two sides of an operator on their own. -/
theorem Maps.append {op : Operator} (splits : P.splits op) (place : Span) (hx : P.Maps items x)
    (hy : P.Maps others y) : P.Maps (items ++ .operator op place :: others)
      (x >>= fun js => y >>= fun ks => .ok (js ++ .operator op place :: ks)) := by
  intro rest ends
  rw [List.append_assoc, List.cons_append, hx _ (.operator splits), P.after_operator splits,
    hy rest ends]
  cases x with
  | error e => rfl
  | ok js =>
    cases y with
    | error e => rfl
    | ok ks =>
      cases P.after rest with
      | error e => rfl
      | ok ls => exact congrArg Except.ok (List.append_assoc js (_ :: ks) ls).symm

/-- The pass takes phrases of one kind to phrases of another, and fails only on formulas that cannot
be resolved. -/
def Takes (P : Pass α β) (F : Phrase α) (G : Phrase β) : Prop :=
  ∀ f items, F f items → ∃ x, Yields f.Resolves x (G f) ∧ P.Maps items x

theorem Takes.run (h : P.Takes F G) {f : Formula} (phrase : F f items) :
    Yields f.Resolves (P.run items) (G f) := by
  obtain ⟨x, yields, maps⟩ := h f items phrase
  rw [maps.run_eq]
  exact yields

theorem Takes.product (h : P.Takes F G) (mul : P.splits .mul) :
    P.Takes (Phrase.Product F) (Phrase.Product G) := by
  intro f items phrase
  induction phrase with
  | factor phrase =>
    obtain ⟨x, yields, maps⟩ := h _ _ phrase
    exact ⟨x, yields.mono id fun _ => .factor, maps⟩
  | mul _ phrase ih =>
    obtain ⟨x, left, maps_left⟩ := ih
    obtain ⟨y, right, maps_right⟩ := h _ _ phrase
    refine ⟨_, ?_, maps_left.append mul _ maps_right⟩
    exact (left.both right fun js ks hjs hks => .ok (.mul hjs hks)).mono Formula.Resolves.mul
      fun _ => id

theorem Takes.sum (h : P.Takes F G) (add : P.splits .add) (sub : P.splits .sub) :
    P.Takes (Phrase.Sum F) (Phrase.Sum G) := by
  intro f items phrase
  induction phrase with
  | product phrase =>
    obtain ⟨x, yields, maps⟩ := h _ _ phrase
    exact ⟨x, yields.mono id fun _ => .product, maps⟩
  | add _ phrase ih =>
    obtain ⟨x, left, maps_left⟩ := ih
    obtain ⟨y, right, maps_right⟩ := h _ _ phrase
    refine ⟨_, ?_, maps_left.append add _ maps_right⟩
    exact (left.both right fun js ks hjs hks => .ok (.add hjs hks)).mono Formula.Resolves.add
      fun _ => id
  | sub _ phrase ih =>
    obtain ⟨x, left, maps_left⟩ := ih
    obtain ⟨y, right, maps_right⟩ := h _ _ phrase
    refine ⟨_, ?_, maps_left.append sub _ maps_right⟩
    exact (left.both right fun js ks hjs hks => .ok (.sub hjs hks)).mono Formula.Resolves.sub
      fun _ => id

end Pass

end Expansion
