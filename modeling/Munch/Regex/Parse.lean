import Munch.Regex.Infix
import Munch.Text.Pieces

/-! Readers of regular expressions: infix notation (`Regex.parse`) and words in Polish notation
(`Regex.parsePolish`).
-/

namespace Munch.Regex

/-- Folds head symbols into the tree that they describe. -/
def ofPolish (order : Polish.OperandOrder) (symbols : List Head) : Except ParseError Regex :=
  ((algebra order).value symbols).mapError .malformed

/-- The tree of infix tokens. -/
def ofTokens (tokens : List Token) : Except ParseError Regex := do
  ofPolish .rightToLeft (← toPolish tokens)

/-- Reads an expression in infix notation, given as characters. -/
def ofInfix (text : List Char) : Except ParseError Regex := do
  ofTokens (← tokenize text)

/-- Reads a head symbol from its name; a literal may also be quoted without need. -/
def Head.ofWord? (word : List Char) : Option Head :=
  if word = "CONCAT".toList then some .concat
  else if word = "UNION".toList then some .union
  else if word = "STAR".toList then some .star
  else if word = "PLUS".toList then some .plus
  else
    match word with
    | [c] => some (.literal c)
    | [left, c, right] =>
        if left = '\'' ∧ right = '\'' then some (.literal c) else none
    | [left, mark, c, right] =>
        if left = '\'' ∧ mark = '\\' ∧ right = '\'' then some (.literal (unescape c)) else none
    | _ => none

/-- The head symbols named by some words; the first word that names none is the error. -/
def ofWords : List (List Char) → Except ParseError (List Head)
  | [] => .ok []
  | word :: words =>
      match Head.ofWord? word with
      | some symbol => (ofWords words).map (symbol :: ·)
      | none => .error (.unknownToken (.ofList word))

/-- Reads an expression from words in Polish notation, given as characters. -/
def ofPolishText (text : List Char) : Except ParseError Regex := do
  ofPolish .leftToRight (← ofWords (Text.words text))

/-- Reads an expression in infix notation. -/
def parse (text : String) : Except ParseError Regex :=
  ofInfix text.toList

/-- Reads an expression from words in Polish notation. -/
def parsePolish (text : String) : Except ParseError Regex :=
  ofPolishText text.toList

end Munch.Regex
