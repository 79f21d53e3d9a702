import Munch.Listing.Write
import Munch.Text.Pieces

/-! Reading deterministic automata from listings. A text holds one listing, or several with empty
lines between them. Every line carries its number in the whole text, so that an error names it; of
several faults the one that is met first is reported: a missing line, and then the lines from top to
bottom.
-/

namespace Munch

namespace Listing

/-- A line with its number. -/
structure Line where
  number : Nat
  text : List Char

/-- The lines with the given texts, numbered from some number on. -/
def numbered (first : Nat) (texts : List (List Char)) : List Line :=
  (texts.zipIdx first).map fun (text, number) => ⟨number, text⟩

/-- The lines of a text, numbered from one. -/
def numberedLines (text : List Char) : List Line :=
  numbered 1 (Text.lines text)

/-- The longest stretches of lines that are not empty, with their numbers. -/
def blocksFrom (first : Nat) (texts : List (List Char)) : List (List Line) :=
  Text.runs (·.text.isEmpty) (numbered first texts)

/-- The listings in a text, which empty lines divide. -/
def blocks (text : List Char) : List (List Line) :=
  blocksFrom 1 (Text.lines text)

/-- Reads the number of a state, with white space around it. -/
def readState (line : Nat) (text : List Char) : Except Error State :=
  match Text.readDecimal? (Text.trim text) with
  | some state => .ok state
  | none => .error (.invalidState line (.ofList text))

/-- Reads an alphabet. -/
def readAlphabet (line : Line) : Except Error (List Char) :=
  match unescapeAll? line.text with
  | some alphabet => .ok alphabet
  | none => .error (.invalidSymbol line.number (.ofList line.text))

/-- Reads a transition. The symbol may itself be a comma or a quote, so the line is cut where
the mark before the symbol stands first and where the mark after it stands last.
-/
def readTransition (line : Line) : Except Error (Transition Char) := do
  let invalid := Error.invalidTransition line.number (.ofList line.text)
  let some (source, rest) := Text.cutAtFirst? beforeSymbol line.text | throw invalid
  let some (spelling, target) := Text.cutAtLast? afterSymbol rest | throw invalid
  let some symbol := readSymbol? spelling
    | throw (.invalidSymbol line.number (.ofList spelling))
  return {
    source := ← readState line.number source,
    symbol,
    target := ← readState line.number target
  }

/-- Reads states that white space divides. -/
def readStates (line : Line) : Except Error (List State) :=
  (Text.words line.text).mapM (readState line.number)

/-- Reads the lines of one listing. -/
def readLines : List Line → Except Error Dfa
  | [] => .error (.missingLine 1 .alphabet)
  | [alphabet] => .error (.missingLine (alphabet.number + 1) .label)
  | [_, label] => .error (.missingLine (label.number + 1) .startState)
  | [_, _, start] => .error (.missingLine (start.number + 1) .finalStates)
  | alphabet :: label :: start :: fourth :: rest => do
    let body := fourth :: rest
    let last := body.getLast (List.cons_ne_nil _ _)
    let symbols ← readAlphabet alphabet
    let first ← readState start.number start.text
    let transitions ← body.dropLast.mapM readTransition
    let finals ← readStates last
    return .ofParts symbols (.ofList label.text) first (.ofList finals) ⟨transitions⟩

end Listing

open Listing

/-- Reads the automaton of which a text is the listing, up to line feeds at its end. -/
def Dfa.ofListing (text : String) : Except Listing.Error Dfa :=
  readLines (numberedLines (Text.dropEndWhile (· = '\n') text.toList))

/-- Reads all automata listed in a text, in order. -/
def Dfa.ofListings (text : String) : Except Listing.Error (List Dfa) :=
  (blocks text.toList).mapM readLines

end Munch
