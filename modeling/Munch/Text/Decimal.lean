/-! Numbers of one machine word in decimal. Writing uses the fewest digits; reading also takes a
plus sign and leading zeros, and nothing else.
-/

namespace Munch.Text

/-- The first number that is too large for a word of 64 bits. -/
def wordLimit : Nat := UInt64.size

/-- The digits of a number, without leading zeros. -/
def decimal (n : Nat) : List Char :=
  Nat.toDigits 10 n

/-- The digits after at most one plus sign. -/
def unsigned : List Char → List Char
  | '+' :: digits => digits
  | digits => digits

/-- Reads digits, with or without a plus sign before them, as a number of one word. -/
def readDecimal? (text : List Char) : Option Nat :=
  let digits := unsigned text
  if digits ≠ [] ∧ digits.all Char.isDigit then
    let n := Nat.ofDigitChars 10 digits 0
    if n < wordLimit then some n else none
  else none

/-- A number is written with decimal digits only. -/
theorem isDigit_of_mem_decimal {n : Nat} {c : Char} (h : c ∈ decimal n) : c.isDigit = true :=
  Nat.isDigit_of_mem_toDigits (by decide) (by decide) h

/-- No number is written with no digits at all. -/
theorem decimal_ne_nil (n : Nat) : decimal n ≠ [] :=
  Nat.toDigits_ne_nil

/-- Digits alone are left as they are. -/
theorem unsigned_decimal (n : Nat) : unsigned (decimal n) = decimal n := by
  unfold unsigned
  split
  · rename_i same
    have := isDigit_of_mem_decimal (n := n) (c := '+') (by simp [same])
    simp at this
  · rfl

/-- Every number of one word reads back. -/
theorem readDecimal?_decimal {n : Nat} (h : n < wordLimit) : readDecimal? (decimal n) = some n := by
  have back : Nat.ofDigitChars 10 (decimal n) 0 = n :=
    Nat.ofDigitChars_toDigits (by decide) (by decide)
  have digits : (decimal n).all Char.isDigit = true :=
    List.all_eq_true.mpr fun _ mem => isDigit_of_mem_decimal mem
  simp [readDecimal?, unsigned_decimal, decimal_ne_nil, digits, back, h]

/-- What is read is a number of one word. -/
theorem lt_wordLimit_of_readDecimal? {text : List Char} {n : Nat}
    (h : readDecimal? text = some n)
    : n < wordLimit := by
  unfold readDecimal? at h
  grind

end Munch.Text
