import Munch.Listing.Basic
import Munch.Text.Decimal

/-! Writing automata as listings.
-/

namespace Munch

namespace Listing

/-- What stands between the source and the symbol of a transition. -/
def beforeSymbol : List Char := [',', '\'']

/-- What stands between the symbol and the target of a transition. -/
def afterSymbol : List Char := ['\'', ',']

/-- The line of a transition whose symbol is written in the given way. -/
def transitionLine (source : State) (symbol : List Char) (target : State) : List Char :=
  Text.decimal source ++ beforeSymbol ++ symbol ++ afterSymbol ++ Text.decimal target

/-- The line of an alphabet. -/
def alphabetLine (alphabet : List Char) : List Char :=
  alphabet.flatMap escape

/-- The line of some states. -/
def statesLine (states : List State) : List Char :=
  List.intercalate [' '] (states.map Text.decimal)

/-- Lines with a line feed between each two of them. -/
def joinLines (lines : List (List Char)) : List Char :=
  List.intercalate ['\n'] lines

end Listing

/-- The lines of the listing of a deterministic automaton. -/
def Dfa.listingLines (dfa : Dfa) : List (List Char) :=
  let transitions := dfa.transitions.toList.map fun t =>
    Listing.transitionLine t.source (Listing.escape t.symbol) t.target
  [Listing.alphabetLine dfa.alphabet, dfa.label.toList, Text.decimal dfa.start]
    ++ transitions ++ [Listing.statesLine dfa.finals.toList]

/-- The listing of a deterministic automaton. -/
def Dfa.listing (dfa : Dfa) : String :=
  .ofList (Listing.joinLines dfa.listingLines)

/-- How the symbol of a transition is written. -/
def Symbol.escaped : Symbol → List Char
  | .epsilon => Symbol.epsilon.name
  | .char c => Listing.escape c

/-- The lines of the listing of a nondeterministic automaton. -/
def Nfa.listingLines (nfa : Nfa) : List (List Char) :=
  let transitions := nfa.transitions.toList.map fun t =>
    Listing.transitionLine t.source t.symbol.escaped t.target
  [Listing.alphabetLine nfa.alphabet.toList, "NFA".toList, Text.decimal nfa.start]
    ++ transitions ++ [Text.decimal nfa.accept]

/-- The listing of a nondeterministic automaton. -/
def Nfa.listing (nfa : Nfa) : String :=
  .ofList (Listing.joinLines nfa.listingLines)

end Munch
