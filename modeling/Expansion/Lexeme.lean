/-!
# Lexemes

A *lexeme* is a smallest meaningful piece of a text: a run of blanks, a run of digits, one letter,
an operator, a bracket or a separator, or any other single character. `lexemes` cuts a text into
lexemes, and every character ends up in one of them (`flatMap_chars_lexemes`).

Runs are as long as possible: two neighbours are never both blanks and never both digits. The cut
is made from the right, where each character either joins the lexeme that follows it or stands
before it as a lexeme of its own.
-/

namespace Expansion

/-- The operators between the operands of an expression. -/
inductive Operator
  | add
  | sub
  | mul
deriving DecidableEq

/-- The character that an operator is written with. -/
def Operator.char : Operator → Char
  | add => '+'
  | sub => '-'
  | mul => '*'

/-- A smallest meaningful piece of a text. -/
inductive Lexeme
  /-- Spaces, tabs, line feeds and carriage returns. -/
  | blanks (cs : List Char)
  /-- Decimal digits. -/
  | digits (cs : List Char)
  /-- One of the letters `a` to `z`. -/
  | letter (c : Char)
  | operator (op : Operator)
  | equals
  | comma
  | opening
  | closing
  /-- Any other character. -/
  | symbol (c : Char)
deriving DecidableEq

namespace Lexeme

/-- Whether the character is a blank of an expression. -/
def isBlankChar (c : Char) : Bool := c == ' ' || c == '\t' || c == '\n' || c == '\r'

/-- The characters of a lexeme. -/
def chars : Lexeme → List Char
  | blanks cs => cs
  | digits cs => cs
  | letter c => [c]
  | operator op => [op.char]
  | equals => ['=']
  | comma => [',']
  | opening => ['(']
  | closing => [')']
  | symbol c => [c]

/-- The lexeme that a character is when it stands alone. -/
def ofChar (c : Char) : Lexeme :=
  if isBlankChar c then blanks [c]
  else if c.isDigit then digits [c]
  else if c.isLower then letter c
  else if c = '+' then operator .add
  else if c = '-' then operator .sub
  else if c = '*' then operator .mul
  else if c = '=' then equals
  else if c = ',' then comma
  else if c = '(' then opening
  else if c = ')' then closing
  else symbol c

/-- Two neighbours as one run, if they are both blanks or both digits. -/
def join? : Lexeme → Lexeme → Option Lexeme
  | blanks cs, blanks ds => some (blanks (cs ++ ds))
  | digits cs, digits ds => some (digits (cs ++ ds))
  | _, _ => none

/-- Puts a lexeme in front of others, joined with its neighbour if the two are one run. -/
def attach (l : Lexeme) : List Lexeme → List Lexeme
  | [] => [l]
  | m :: ms => match l.join? m with
    | some run => run :: ms
    | none => l :: m :: ms

/-- Whether the lexeme is a run of blanks. -/
def isBlank : Lexeme → Bool
  | blanks _ => true
  | _ => false

/-- Whether the lexeme is an operator. -/
def isOperator : Lexeme → Bool
  | operator _ => true
  | _ => false

@[simp] theorem chars_ofChar (c : Char) : (ofChar c).chars = [c] := by
  unfold ofChar
  split
  · rfl
  split
  · rfl
  split
  · rfl
  repeat' split
  all_goals simp_all [chars, Operator.char]

theorem chars_of_join? {l m run : Lexeme} (h : l.join? m = some run) :
    run.chars = l.chars ++ m.chars := by
  cases l <;> cases m <;> simp_all [join?, chars] <;> subst h <;> rfl

theorem flatMap_chars_attach (l : Lexeme) (ls : List Lexeme) :
    (l.attach ls).flatMap chars = l.chars ++ ls.flatMap chars := by
  cases ls with
  | nil => rfl
  | cons m ms =>
    simp only [attach]
    split
    · next run h => simp [chars_of_join? h]
    · rfl

end Lexeme

/-- The lexemes of a text, from left to right. -/
def lexemes (cs : List Char) : List Lexeme :=
  cs.foldr (fun c ls => (Lexeme.ofChar c).attach ls) []

/-- The lexemes of a text, written one after another, are the text. -/
theorem flatMap_chars_lexemes (cs : List Char) : (lexemes cs).flatMap Lexeme.chars = cs := by
  induction cs with
  | nil => rfl
  | cons c cs ih =>
    show ((Lexeme.ofChar c).attach (lexemes cs)).flatMap Lexeme.chars = c :: cs
    rw [Lexeme.flatMap_chars_attach, Lexeme.chars_ofChar, ih]
    rfl

end Expansion
