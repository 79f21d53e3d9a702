/-! White space as Unicode defines it: the characters with the property `White_Space`. Separators
that are only formatting characters (such as U+200B or U+FEFF) are not among them.
-/

namespace Munch.Text

/-- The first and the last character of every interval of white space, in ascending order. -/
def whiteIntervals : List (Nat × Nat) :=
  [
    (0x09, 0x0D), (0x20, 0x20), (0x85, 0x85), (0xA0, 0xA0), (0x1680, 0x1680),
    (0x2000, 0x200A), (0x2028, 0x2029), (0x202F, 0x202F), (0x205F, 0x205F),
    (0x3000, 0x3000)
  ]

/-- The character has the Unicode property `White_Space`. -/
def isWhite (c : Char) : Bool :=
  whiteIntervals.any fun (first, last) => first ≤ c.toNat && c.toNat ≤ last

/-- The text without the white space at its front. -/
def trimStart (text : List Char) : List Char :=
  text.dropWhile isWhite

/-- The list without the longest stretch at its end of which every element passes the test. -/
def dropEndWhile {α : Type} (test : α → Bool) (items : List α) : List α :=
  (items.reverse.dropWhile test).reverse

/-- The text without the white space at its front and at its end. -/
def trim (text : List Char) : List Char :=
  dropEndWhile isWhite (trimStart text)

end Munch.Text
