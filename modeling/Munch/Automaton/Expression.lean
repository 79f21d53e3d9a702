import Munch.Automaton.Subset
import Munch.Automaton.Thompson
import Munch.Regex.Parse

/-! Automata of regular expressions.
-/

namespace Munch.Dfa

/-- The deterministic automaton of an expression. -/
def ofTree (tree : Regex) (label : String) : Dfa :=
  ofNfa (.ofRegex tree) label

/-- The deterministic automaton of an expression in infix notation. -/
def ofRegex (text label : String) : Except Regex.ParseError Dfa := do
  return ofTree (← Regex.parse text) label

end Munch.Dfa
