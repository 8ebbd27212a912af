/-!
# White space

The characters with the Unicode property `White_Space`, and what is left of a text without them at
its ends. The calculator skips blank lines and trims its settings by this property; inside an
expression only four of these characters count as blanks (see `Expansion.Lexeme`).
-/

namespace Expansion.Text

/-- The ranges of code points with the property `White_Space`, both ends included. -/
def whiteSpace : List (Nat × Nat) :=
  [(0x0009, 0x000D), (0x0020, 0x0020), (0x0085, 0x0085), (0x00A0, 0x00A0), (0x1680, 0x1680),
    (0x2000, 0x200A), (0x2028, 0x2029), (0x202F, 0x202F), (0x205F, 0x205F), (0x3000, 0x3000)]

/-- Whether the character has the property `White_Space`. -/
def isWhiteSpace (c : Char) : Bool :=
  whiteSpace.any fun (first, last) => first ≤ c.toNat && c.toNat ≤ last

/-- Whether every character of the text is white space. -/
def isBlank (cs : List Char) : Bool := cs.all isWhiteSpace

/-- The list without the elements at its two ends that satisfy `p`. -/
def trimBoth {α : Type} (p : α → Bool) (xs : List α) : List α :=
  ((xs.dropWhile p).reverse.dropWhile p).reverse

/-- The text without white space at its two ends. -/
def trim (cs : List Char) : List Char := trimBoth isWhiteSpace cs

end Expansion.Text
