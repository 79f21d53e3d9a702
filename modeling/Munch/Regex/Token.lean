import Munch.Regex.Basic
import Munch.Text.Whitespace

/-! Tokens of regular expressions in infix notation. A text is cut into tokens from left to right,
and adjacent operands get a concatenation between them. The longest spelling that applies at a place
is taken: the shorthands `[a-z]` and `[0-9]`, then quoted characters, then single ones.
-/

namespace Munch.Regex

/-- A unit of infix notation: a parenthesis or a head symbol of a tree. -/
inductive Token where
  | openGroup
  | closeGroup
  | head (symbol : Head)
  deriving DecidableEq

namespace Token

/-- A character that stands for itself. -/
abbrev literal (c : Char) : Token := .head (.literal c)

/-- An operand may end with the token. -/
def endsOperand : Token → Bool
  | .closeGroup | .head (.literal _) | .head .plus | .head .star => true
  | _ => false

/-- An operand may begin with the token. -/
def beginsOperand : Token → Bool
  | .openGroup | .head (.literal _) => true
  | _ => false

end Token

/-- The character that an escaped character stands for. -/
def unescape : Char → Char
  | 'n' => '\n'
  | 't' => '\t'
  | c => c

/-- The characters that are written in quotes because they mean something on their own. -/
def needsQuotes (c : Char) : Bool :=
  Text.isWhite c || "()|*+'".toList.contains c

/-- The name of a head symbol: a word for an operator, and a character in a readable form. -/
def Head.name : Head → List Char
  | .star => "STAR".toList
  | .plus => "PLUS".toList
  | .concat => "CONCAT".toList
  | .union => "UNION".toList
  | .literal c =>
      if c = '\n' then ['\'', '\\', 'n', '\'']
      else if c = '\t' then ['\'', '\\', 't', '\'']
      else if needsQuotes c then ['\'', c, '\'']
      else [c]

/-- The name of a token. -/
def Token.name : Token → List Char
  | .openGroup => ['(']
  | .closeGroup => [')']
  | .head symbol => symbol.name

/-- The characters that the shorthand `[a-z]` stands for. -/
def lowercase : List Char := "abcdefghijklmnopqrstuvwxyz".toList

/-- The characters that the shorthand `[0-9]` stands for. -/
def digits : List Char := "0123456789".toList

/-- The union of some characters, as a group. -/
def choice (chars : List Char) : List Token :=
  .openGroup :: (chars.map Token.literal).intersperse (.head .union) ++ [.closeGroup]

/-- The tokens spelled in a text, of which the first character has the given position. -/
def spelled (position : Nat) : List Char → Except ParseError (List Token)
  | [] => .ok []
  -- shorthands come before single brackets, and escapes before quoted backslashes
  | '[' :: 'a' :: '-' :: 'z' :: ']' :: rest =>
      (spelled (position + 5) rest).map (choice lowercase ++ ·)
  | '[' :: '0' :: '-' :: '9' :: ']' :: rest =>
      (spelled (position + 5) rest).map (choice digits ++ ·)
  | '\'' :: '\\' :: c :: '\'' :: rest =>
      (spelled (position + 4) rest).map (.literal (unescape c) :: ·)
  | '\'' :: c :: '\'' :: rest => (spelled (position + 3) rest).map (.literal c :: ·)
  | '\'' :: _ => .error (.unterminatedLiteral position)
  | '(' :: rest => (spelled (position + 1) rest).map (.openGroup :: ·)
  | ')' :: rest => (spelled (position + 1) rest).map (.closeGroup :: ·)
  | '|' :: rest => (spelled (position + 1) rest).map (.head .union :: ·)
  | '+' :: rest => (spelled (position + 1) rest).map (.head .plus :: ·)
  | '*' :: rest => (spelled (position + 1) rest).map (.head .star :: ·)
  | c :: rest =>
      if Text.isWhite c then spelled (position + 1) rest
      else (spelled (position + 1) rest).map (.literal c :: ·)

/-- Two neighbours between which a concatenation is understood. -/
def Token.juxtaposed (left right : Token) : Bool :=
  left.endsOperand && right.beginsOperand

/-- Puts the concatenations that are understood between neighbours. -/
def concatenated : List Token → List Token
  | left :: right :: rest =>
      if left.juxtaposed right then left :: .head .concat :: concatenated (right :: rest)
      else left :: concatenated (right :: rest)
  | tokens => tokens

/-- The tokens of a text, with a concatenation between adjacent operands. -/
def tokenize (text : List Char) : Except ParseError (List Token) :=
  (spelled 0 text).map concatenated

end Munch.Regex
