import Munch.Lexer.Rule
import Munch.Lexer.Scan
import Munch.Listing.Read

/-! Lexers: automata in the order of their precedence. A lexer comes from token rules or from
listings, cuts inputs into tokens, and can be listed again.
-/

namespace Munch

/-- Automata in order; of those that accept equally long lexemes the earliest counts. -/
structure Lexer where
  automata : List Dfa

namespace Lexer

instance : EmptyCollection Lexer where
  emptyCollection := ⟨[]⟩

/-- The lexer of some rules. The first rule that has no automaton is the error. -/
def ofRules (rules : List Rule) : Except Rule.Error Lexer := do
  return ⟨← rules.mapM Rule.compile⟩

/-- The lexer of the rules in a text. -/
def ofRuleText (text : String) : Except Rule.Error Lexer := do
  ofRules (← Rule.ofText text)

/-- The lexer of the automata listed in a text. -/
def ofListings (text : String) : Except Listing.Error Lexer := do
  return ⟨← Dfa.ofListings text⟩

/-- The labels of the tokens, in order. -/
def labels (lexer : Lexer) : List String :=
  lexer.automata.map Dfa.label

/-- The tokens of an input. -/
def tokenize (lexer : Lexer) (input : String) : Except ScanError (List Token) :=
  scan lexer.automata input.toList

/-- The listings of all automata, with an empty line between each two of them. -/
def listing (lexer : Lexer) : String :=
  .ofList (List.intercalate ['\n', '\n'] (lexer.automata.map fun dfa => dfa.listing.toList))

end Lexer

end Munch
