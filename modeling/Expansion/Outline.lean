import Expansion.Error
import Expansion.Options
import Expansion.Token

/-!
# The outline of a text

The *outline* of a token list pairs up its parentheses: it is a sequence of tokens and of
*groups*, where a group is a pair of parentheses with an outline of its own inside. Every token
list has an outline, because a parenthesis without a partner stays a plain token of it, and the
outline holds exactly the tokens it was made from (`tokens_ofTokens`).

The outline is made from the right. A closing parenthesis opens a new level, the next opening
parenthesis ends that level as a group, and an opening parenthesis with no level to end has no
partner. Levels that are still open at the left end belong to closing parentheses without a
partner.

An expression is refused if its outline has a *defect*: a parenthesis without a partner, a group
with nothing but blanks inside, or a group that is nested too deeply. The error is the one of the
defect that starts first (`defect?`).
-/

namespace Expansion

/-- A sequence of tokens and groups. -/
inductive Outline
  | nil
  | token (t : Token) (rest : Outline)
  | group (opening : Token) (body : Outline) (closing : Token) (rest : Outline)
deriving DecidableEq

namespace Outline

/-! ## The tokens of an outline -/

/-- The tokens of an outline from left to right, parentheses and blanks included. -/
def tokens : Outline → List Token
  | nil => []
  | token t rest => t :: rest.tokens
  | group opening body closing rest => opening :: (body.tokens ++ closing :: rest.tokens)

/-- The number of tokens of an outline. -/
def size : Outline → Nat
  | nil => 0
  | token _ rest => rest.size + 1
  | group _ body _ rest => body.size + rest.size + 2

/-- The number of groups of an outline, nested ones included. -/
def groupCount : Outline → Nat
  | nil => 0
  | token _ rest => rest.groupCount
  | group _ body _ rest => body.groupCount + rest.groupCount + 1

/-- The text of an outline. -/
def text (o : Outline) : String := String.ofList (Token.charsOf o.tokens)

/-- Whether the outline has nothing but blanks. -/
def isBlank : Outline → Bool
  | nil => true
  | token t rest => t.isBlank && rest.isBlank
  | group _ _ _ _ => false

/-- The first outline followed by the second. -/
def append : Outline → Outline → Outline
  | nil, after => after
  | token t rest, after => token t (rest.append after)
  | group opening body closing rest, after => group opening body closing (rest.append after)

theorem length_tokens (o : Outline) : o.tokens.length = o.size := by
  induction o with
  | nil => rfl
  | token t rest ih => simp [tokens, size, ih]
  | group opening body closing rest ihBody ihRest => simp [tokens, size, ihBody, ihRest]; omega

@[simp] theorem tokens_append (o after : Outline) :
    (o.append after).tokens = o.tokens ++ after.tokens := by
  induction o with
  | nil => rfl
  | token t rest ih => simp [append, tokens, ih]
  | group opening body closing rest _ ih => simp [append, tokens, ih]

/-! ## Pairing up parentheses -/

/-- An outline that is being made from the right: the innermost level, and for each level around
it the closing parenthesis that stands before it. -/
structure Partial where
  level : Outline
  around : List (Token × Outline)

/-- The next token to the left is put in front. -/
def Partial.push (t : Token) (p : Partial) : Partial :=
  match t.lexeme, p.around with
  | .closing, around => ⟨nil, (t, p.level) :: around⟩
  | .opening, (closing, rest) :: around => ⟨group t p.level closing rest, around⟩
  | _, around => ⟨token t p.level, around⟩

/-- The outline with the open levels `around` joined to the innermost one. -/
def joinLevels (level : Outline) : List (Token × Outline) → Outline
  | [] => level
  | (closing, rest) :: around => level.append (token closing (joinLevels rest around))

/-- The outline of a token list. -/
def ofTokens (ts : List Token) : Outline :=
  let p := ts.foldr Partial.push ⟨nil, []⟩
  joinLevels p.level p.around

theorem tokens_joinLevels (level : Outline) (around : List (Token × Outline)) :
    (joinLevels level around).tokens =
      level.tokens ++ around.flatMap fun (closing, rest) => closing :: rest.tokens := by
  induction around generalizing level with
  | nil => simp [joinLevels]
  | cons first around ih => simp [joinLevels, tokens, ih]

theorem tokens_push (t : Token) (p : Partial) :
    (joinLevels (p.push t).level (p.push t).around).tokens =
      t :: (joinLevels p.level p.around).tokens := by
  unfold Partial.push
  split <;> simp_all [tokens_joinLevels, tokens]

/-- An outline holds the tokens it was made from. -/
theorem tokens_ofTokens (ts : List Token) : (ofTokens ts).tokens = ts := by
  induction ts with
  | nil => rfl
  | cons t ts ih => exact (tokens_push t _).trans (congrArg (t :: ·) ih)

/-! ## Defects -/

/-- The error of the first defect of an outline whose own level is `depth`. -/
def defect? (maxDepth : Nat) (depth : Nat) : Outline → Option Error
  | nil => none
  | token t rest => match t.lexeme with
    | .opening => some (.unclosed t.span)
    | .closing => some (.unopened t.span)
    | _ => rest.defect? maxDepth depth
  | group opening body closing rest =>
    let place := opening.span.through closing.span
    if body.isBlank then some (.emptyParenthesis place)
    else if maxDepth ≤ depth then some (.nestingTooDeep maxDepth place)
    else (body.defect? maxDepth (depth + 1)).or (rest.defect? maxDepth depth)

/-- The outline of a text, if it has no defect. -/
def parse (options : Options) (text : String) : Except Error Outline :=
  let o := ofTokens (tokenize text)
  match o.defect? options.maxDepth 0 with
  | some e => .error e
  | none => .ok o

end Outline

end Expansion
