import Munch.Polish

/-! Regular expressions as trees, the head symbols of which they are made, their rendering, and the
errors of their readers. A tree is the value of its head symbols in Polish notation.
-/

namespace Munch

/-- A regular expression over single characters. -/
inductive Regex where
  | literal (c : Char)
  /-- Zero or more repetitions. -/
  | star (inner : Regex)
  /-- One or more repetitions. -/
  | plus (inner : Regex)
  | concat (left right : Regex)
  | union (left right : Regex)
  deriving DecidableEq

namespace Regex

/-- The symbol at the root of a tree, without what is below it. -/
inductive Head where
  | literal (c : Char)
  | star
  | plus
  | concat
  | union
  deriving DecidableEq

/-- How many trees hang below the symbol. -/
def Head.arity : Head → Nat
  | .literal _ => 0
  | .star | .plus => 1
  | .concat | .union => 2

/-- The tree with a given root and given trees below it, if their number is right. -/
def ofHead? : Head → List Regex → Option Regex
  | .literal c, [] => some (.literal c)
  | .star, [inner] => some (.star inner)
  | .plus, [inner] => some (.plus inner)
  | .concat, [left, right] => some (.concat left right)
  | .union, [left, right] => some (.union left right)
  | _, _ => none

/-- Trees as the values of head symbols in Polish notation, read in the given order. -/
def algebra (order : Polish.OperandOrder) : Polish.Algebra Head Regex where
  arity := Head.arity
  order := order
  assemble := ofHead?

/-- The head symbols of a tree, each before those of the trees below it. -/
def preorder : Regex → List Head
  | .literal c => [.literal c]
  | .star inner => .star :: preorder inner
  | .plus inner => .plus :: preorder inner
  | .concat left right => .concat :: (preorder left ++ preorder right)
  | .union left right => .union :: (preorder left ++ preorder right)

/-- The tree written as nested applications, with every character standing for itself. -/
def render : Regex → List Char
  | .literal c => [c]
  | .star inner => "Star(".toList ++ render inner ++ [')']
  | .plus inner => "Plus(".toList ++ render inner ++ [')']
  | .concat left right => "Concat(".toList ++ render left ++ [','] ++ render right ++ [')']
  | .union left right => "Union(".toList ++ render left ++ [','] ++ render right ++ [')']

instance : ToString Regex where
  toString tree := .ofList tree.render

/-- Why a text is not a regular expression. -/
inductive ParseError where
  /-- A quote does not open a quoted character. -/
  | unterminatedLiteral (position : Nat)
  | unbalancedParenthesis
  /-- A word names no head symbol. -/
  | unknownToken (word : String)
  /-- The symbols are there, but they do not form one tree. -/
  | malformed (cause : Polish.Error)
  deriving DecidableEq

/-- What the error says to a user. -/
def ParseError.message : ParseError → String
  | .unterminatedLiteral position =>
      "unterminated quoted literal at character " ++ toString position
  | .unbalancedParenthesis => "unbalanced parenthesis"
  | .unknownToken word => "unknown token `" ++ word ++ "`"
  | .malformed cause => "malformed expression: " ++ cause.message

end Regex

end Munch
