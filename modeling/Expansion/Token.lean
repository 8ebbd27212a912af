import Expansion.Span
import Expansion.Lexeme

/-!
# Tokens

A *token* is a lexeme at its place in the text. The tokens of a text touch each other and cover it
from its first byte to its last; the *significant* ones are those that are not blank.
-/

namespace Expansion

/-- A lexeme and the byte offset at which it starts. -/
structure Token where
  lexeme : Lexeme
  start : Nat
deriving DecidableEq

namespace Token

/-- The characters of a token. -/
def chars (t : Token) : List Char := t.lexeme.chars

/-- The text of a token. -/
def text (t : Token) : String := String.ofList t.chars

/-- The byte offset at which a token ends. -/
def stop (t : Token) : Nat := t.start + byteLength t.chars

/-- The region of the text that a token covers. -/
def span (t : Token) : Span := ⟨t.start, t.stop⟩

/-- Whether the token is a run of blanks. -/
def isBlank (t : Token) : Bool := t.lexeme.isBlank

/-- The text that tokens cover together. -/
def charsOf (ts : List Token) : List Char := ts.flatMap chars

/-- The region from the first of the tokens `t :: ts` to the last of them. -/
def cover (t : Token) (ts : List Token) : Span := ⟨t.start, (ts.getLast?.getD t).stop⟩

/-- The lexemes as tokens that touch each other, the first of them at `start`. -/
def place (start : Nat) : List Lexeme → List Token
  | [] => []
  | l :: ls => ⟨l, start⟩ :: place (start + byteLength l.chars) ls

@[simp] theorem lexeme_place (start : Nat) (ls : List Lexeme) :
    (place start ls).map lexeme = ls := by
  induction ls generalizing start with
  | nil => rfl
  | cons l ls ih => simp [place, ih]

theorem charsOf_place (start : Nat) (ls : List Lexeme) :
    charsOf (place start ls) = ls.flatMap Lexeme.chars := by
  induction ls generalizing start with
  | nil => rfl
  | cons l ls ih => simpa [place, charsOf, chars] using ih _

end Token

/-- The tokens of a text, blanks included. -/
def tokenize (text : String) : List Token := Token.place 0 (lexemes text.toList)

/-- The tokens of a text that are not blank. -/
def significantTokens (text : String) : List Token := (tokenize text).filter (!·.isBlank)

/-- The tokens of a text cover it. -/
theorem charsOf_tokenize (text : String) : Token.charsOf (tokenize text) = text.toList := by
  rw [tokenize, Token.charsOf_place, flatMap_chars_lexemes]

end Expansion
