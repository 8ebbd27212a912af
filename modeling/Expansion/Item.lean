import Expansion.Token

/-!
# Operators and operands

An expression without its blanks is a sequence of *items*: operators, and the operands between
them. An operand is a *run*, which is a longest list of neighbouring tokens that are not operators,
or something else that stands for a value. Where there is nothing else, operands are runs
(`Operand Empty`), and the items are those of a token list (`Item.ofTokens`).
-/

namespace Expansion

/-- An operator at its place, or an operand. -/
inductive Item (α : Type)
  | operator (op : Operator) (place : Span)
  | operand (a : α)
deriving DecidableEq

/-- Neighbouring tokens that are not operators. -/
structure Run where
  first : Token
  rest : List Token
deriving DecidableEq

/-- The tokens of a run. -/
def Run.tokens (r : Run) : List Token := r.first :: r.rest

/-- The region of a run. -/
def Run.place (r : Run) : Span := Token.cover r.first r.rest

/-- A run of tokens, or something else that stands for a value. -/
inductive Operand (ν : Type)
  | run (r : Run)
  | value (v : ν)
deriving DecidableEq

/-- The operand as one of a sequence of runs, if it is a run. -/
def Operand.run? {ν : Type} : Operand ν → Option (Operand Empty)
  | run r => some (run r)
  | value _ => none

namespace Item

variable {α β ν : Type}

/-- Puts a token in front of items: it extends a run that starts there, or starts an item of its
own. Blanks are left out. -/
def push (t : Token) (items : List (Item (Operand ν))) : List (Item (Operand ν)) :=
  match t.lexeme, items with
  | .blanks _, items => items
  | .operator op, items => operator op t.span :: items
  | _, operand (.run r) :: items => operand (.run ⟨t, r.tokens⟩) :: items
  | _, items => operand (.run ⟨t, []⟩) :: items

/-- The items of a token list. -/
def ofTokens (ts : List Token) : List (Item (Operand Empty)) := ts.foldr push []

/-- The item with its operand replaced by what `f` makes of it. -/
def mapM {m : Type → Type} [Monad m] (f : α → m β) : Item α → m (Item β)
  | operator op place => pure (operator op place)
  | operand a => do
    let b ← f a
    pure (operand b)

/-- The items, if all their operands are runs. -/
def runs? (items : List (Item (Operand ν))) : Option (List (Item (Operand Empty))) :=
  items.mapM (·.mapM Operand.run?)

end Item

end Expansion
