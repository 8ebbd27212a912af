/-!
# Decimal numerals

The value of a run of decimal digits, the text of an integer, and the lenient reader of integers
that stand alone. Reading the digits of a number gives the number back (`value_digits`).
-/

namespace Expansion.Numeral

/-- The value of a run of decimal digits. Leading zeros are allowed, and no digit means zero. -/
def value (ds : List Char) : Nat := Nat.ofDigitChars 10 ds 0

/-- The decimal digits of a number, without leading zeros. -/
def digits (n : Nat) : List Char := Nat.toDigits 10 n

@[simp] theorem value_digits (n : Nat) : value (digits n) = n := Nat.ofDigitChars_ten_toDigits

/-- The text of an integer: a minus sign if it is negative, then the digits of its size. -/
def chars (n : Int) : List Char :=
  if n < 0 then '-' :: digits n.natAbs else digits n.natAbs

/-- The text of an integer. -/
def text (n : Int) : String := String.ofList (chars n)

/-- The integer with the given size and sign. -/
def signed (negative : Bool) (n : Nat) : Int := if negative then -n else n

/-- The characters that the reader of integers skips wherever they stand. -/
def isSkipped (c : Char) : Bool :=
  c == ' ' || c == '\t' || c == '\n' || c == '\x0b' || c == '\x0c' || c == '\r'

/-- The value of digits that may be grouped by underscores after the first of them. -/
def grouped? : List Char → Option Nat
  | [] => none
  | d :: rest =>
    let ds := rest.filter (· != '_')
    if d.isDigit && ds.all Char.isDigit then some (value (d :: ds)) else none

/-- Reads an integer: an optional sign, then digits, which may be grouped by underscores. Blanks
are skipped wherever they stand. -/
def readInt? (s : String) : Option Int :=
  match s.toList.filter (!isSkipped ·) with
  | '-' :: rest => (grouped? rest).map (signed true)
  | '+' :: rest => (grouped? rest).map (signed false)
  | rest => (grouped? rest).map (signed false)

end Expansion.Numeral
