import Munch.Automaton.Dfa

/-! Listings: automata as lines of text.

ab          the alphabet, all symbols in a row WORD        the label of the tokens 0           the
start state 0,'a',1     one transition in each line 0,'b',2 1 3         the final states

Line feeds, carriage returns, tabs and backslashes are escaped, in the alphabet as well as in
transitions. A listing of a nondeterministic automaton has the label `NFA`, the word `eps` in its
silent transitions, and its accepting state in the last line. This module holds the escapes and the
errors of the reader.
-/

namespace Munch.Listing

/-- How a symbol is written. -/
def escape (c : Char) : List Char :=
  if c = '\n' then ['\\', 'n']
  else if c = '\t' then ['\\', 't']
  else if c = '\r' then ['\\', 'r']
  else if c = '\\' then ['\\', '\\']
  else [c]

/-- The symbol that stands behind a backslash. -/
def unescape? : Char → Option Char
  | 'n' => some '\n'
  | 't' => some '\t'
  | 'r' => some '\r'
  | '\\' => some '\\'
  | _ => none

/-- The symbols that a text spells, if every backslash begins an escape. -/
def unescapeAll? : List Char → Option (List Char)
  | [] => some []
  | ['\\'] => none
  | '\\' :: c :: rest => do return (← unescape? c) :: (← unescapeAll? rest)
  | c :: rest => (unescapeAll? rest).map (c :: ·)

/-- The symbol that a text spells. A backslash alone stands for itself here. -/
def readSymbol? : List Char → Option Char
  | [c] => some c
  | [mark, c] => if mark = '\\' then unescape? c else none
  | _ => none

/-- A symbol is written behind a backslash that calls for it, or as itself. -/
theorem escape_cases (c : Char)
    : (∃ letter, unescape? letter = some c ∧ escape c = ['\\', letter])
      ∨ (c ≠ '\\' ∧ escape c = [c]) := by
  by_cases h : c = '\n' ∨ c = '\t' ∨ c = '\r' ∨ c = '\\'
  · left
    rcases h with rfl | rfl | rfl | rfl
    · exact ⟨'n', rfl, rfl⟩
    · exact ⟨'t', rfl, rfl⟩
    · exact ⟨'r', rfl, rfl⟩
    · exact ⟨'\\', rfl, rfl⟩
  · right
    simp_all [escape]

/-- Escaped symbols in a row spell the symbols. -/
theorem unescapeAll?_flatMap_escape (symbols : List Char)
    : unescapeAll? (symbols.flatMap escape) = some symbols := by
  induction symbols with
  | nil => rfl
  | cons c rest ih =>
      rw [List.flatMap_cons]
      rcases escape_cases c with ⟨letter, back, written⟩ | ⟨plain, written⟩
      · simp [written, unescapeAll?, back, ih]
      · simp [written, unescapeAll?, plain, ih]

/-- An escaped symbol spells the symbol. -/
theorem readSymbol?_escape (c : Char) : readSymbol? (escape c) = some c := by
  rcases escape_cases c with ⟨letter, back, written⟩ | ⟨_, written⟩
  · simp [written, readSymbol?, back]
  · simp [written, readSymbol?]

/-- The lines that every listing has. -/
inductive Part where
  | alphabet
  | label
  | startState
  | finalStates
  deriving DecidableEq

/-- The name of a part in messages. -/
def Part.name : Part → String
  | .alphabet => "alphabet"
  | .label => "label"
  | .startState => "start state"
  | .finalStates => "final states"

/-- Why a text is no listing. Lines are counted from one over the whole text. -/
inductive Error where
  | missingLine (line : Nat) (expected : Part)
  | invalidState (line : Nat) (text : String)
  | invalidTransition (line : Nat) (text : String)
  | invalidSymbol (line : Nat) (text : String)
  deriving DecidableEq

namespace Error

/-- The line that the error is about. -/
def line : Error → Nat
  | .missingLine line _ | .invalidState line _ | .invalidTransition line _
  | .invalidSymbol line _ => line

/-- What is wrong with the line. -/
def complaint : Error → String
  | .missingLine _ expected => "expected the " ++ expected.name ++ " line"
  | .invalidState _ text => "invalid state `" ++ text ++ "`"
  | .invalidTransition _ text => "invalid transition `" ++ text ++ "`"
  | .invalidSymbol _ text => "invalid symbol `" ++ text ++ "`"

/-- What the error says to a user. -/
def message (error : Error) : String :=
  "line " ++ toString error.line ++ ": " ++ error.complaint

end Error

end Munch.Listing
