import Munch.Automaton.Expression
import Munch.Text.Whitespace

/-! Token rules: labels with regular expressions, and the text form in which each rule is ended by a
semicolon at the end of a line.
-/

namespace Munch

/-- A kind of token: its label and the expression, in infix notation, for its lexemes. -/
structure Rule where
  label : String
  pattern : String
  deriving DecidableEq

namespace Rule

/-- Why rules do not describe a lexer. -/
inductive Error where
  | missingLabel (statement : String)
  | badPattern (label : String) (cause : Regex.ParseError)
  deriving DecidableEq

/-- What the error says to a user. -/
def Error.message : Error → String
  | .missingLabel statement => "rule `" ++ statement ++ "` has no label"
  | .badPattern label cause => "invalid regex for rule " ++ label ++ ": " ++ cause.message

/-- The statements of a text, each of which is ended by a semicolon and a line feed. What
follows the last end is no statement.
-/
def statements : List Char → List (List Char)
  | [] => []
  | ';' :: '\n' :: rest => [] :: statements rest
  | c :: rest =>
      match statements rest with
      | [] => []
      | first :: more => (c :: first) :: more

/-- Reads a rule: the label goes up to the first space, and all behind that is the expression. -/
def ofStatement (statement : List Char) : Except Error Rule :=
  let text := Text.trimStart statement
  match text.span (· ≠ ' ') with
  | (label, _ :: pattern) => .ok ⟨.ofList label, .ofList pattern⟩
  | (_, []) => .error (.missingLabel (.ofList text))

/-- The rules in a text, in order. -/
def ofText (text : String) : Except Error (List Rule) :=
  (statements text.toList).mapM ofStatement

/-- The automaton of a rule. -/
def compile (rule : Rule) : Except Error Dfa :=
  (Dfa.ofRegex rule.pattern rule.label).mapError (.badPattern rule.label)

end Rule

end Munch
