import Munch.Automaton.Dfa

/-! Maximal munch: a text is cut into the longest lexemes that some automaton accepts, one after the
other. Each token takes a round, in which all automata read the rest of the text in lockstep. An
automaton drops out when it enters a sink or has no transition; the round is over when all have
dropped out or the text has ended. The earliest automaton that accepted furthest gives the token,
and the next round begins behind its lexeme, wherever the automata had got to. The line of a place
is told by the number of line feeds before it; how a program finds these, byte by byte or otherwise,
makes no difference.
-/

namespace Munch

/-- A lexeme with the label of the automaton that accepted it. -/
structure Token where
  label : String
  lexeme : String
  deriving DecidableEq

/-- The token in one line: line feeds in the lexeme are written as an escape. -/
def Token.render (token : Token) : String :=
  let escaped := token.lexeme.toList.flatMap fun c => if c = '\n' then ['\\', 'n'] else [c]
  token.label ++ " " ++ .ofList escaped

/-- A place in a text: how many characters and how many line feeds stand before it. -/
structure Position where
  character : Nat
  line : Nat
  deriving DecidableEq

/-- The place behind some more text. -/
def Position.after (position : Position) (text : List Char) : Position :=
  ⟨position.character + text.length, position.line + text.count '\n'⟩

/-- Why a text is not cut into tokens. -/
inductive ScanError where
  /-- Every automaton dropped out and none had accepted; the character is the one at which the
  last of them did so. -/
  | noViableAlternative (character line : Nat)
  /-- The text ended in the middle of a lexeme. -/
  | unexpectedEnd (line : Nat)
  | noRules
  deriving DecidableEq

/-- What the error says to a user. -/
def ScanError.message : ScanError → String
  | .noViableAlternative character line =>
      "No viable alternative at character " ++ toString character ++ ", line " ++ toString line
  | .unexpectedEnd line => "No viable alternative at character EOF, line " ++ toString line
  | .noRules => "no automata to scan with"

/-- One automaton in a round. -/
structure Runner where
  dfa : Dfa
  state : State
  /-- The index of the character of the round behind which the automaton accepted last. -/
  lastAccept : Option Nat
  dead : Bool

namespace Runner

/-- The automaton before the first character. One that starts in a sink takes no part. -/
def start (dfa : Dfa) : Runner :=
  { dfa, state := dfa.start, lastAccept := none, dead := dfa.isSink dfa.start }

/-- Reads the character with the given index in the round, unless the automaton is out of it. -/
def feed (index : Nat) (c : Char) (runner : Runner) : Runner :=
  if runner.dead then runner
  else
    match runner.dfa.step runner.state c with
    | none => { runner with dead := true }
    | some next =>
        if runner.dfa.isSink next then { runner with state := next, dead := true }
        else if runner.dfa.isFinal next then { runner with state := next, lastAccept := some index }
        else { runner with state := next }

/-- The better one of an automaton with its last accepting index and a runner: a later runner has
to be strictly ahead.
-/
def best (leader : Option (Dfa × Nat)) (runner : Runner) : Option (Dfa × Nat) :=
  match leader, runner.lastAccept with
  | leader, none => leader
  | none, some last => some (runner.dfa, last)
  | some (dfa, furthest), some last =>
      if furthest < last then some (runner.dfa, last) else some (dfa, furthest)

end Runner

/-- All automata in lockstep, behind the character with the given index. -/
structure Round where
  runners : List Runner
  index : Nat

namespace Round

/-- Every automaton has dropped out. -/
def isOver (round : Round) : Bool :=
  round.runners.all Runner.dead

/-- Feeds the character with the given index to all runners, and then more characters, until all
automata have dropped out or the characters are used up.
-/
def run (runners : List Runner) (index : Nat) (c : Char) : List Char → Round
  | [] => { runners := runners.map (Runner.feed index c), index }
  | next :: more =>
      let round : Round := { runners := runners.map (Runner.feed index c), index }
      if round.isOver then round else run round.runners (index + 1) next more

/-- The earliest automaton with the furthest accepting index. -/
def winner? (round : Round) : Option (Dfa × Nat) :=
  round.runners.foldl Runner.best none

/-- The error of a round that began at some position of a text and in which nothing was accepted.
It names the character with which the round ended.
-/
def failure (round : Round) (position : Position) (text : List Char) : ScanError :=
  let place := position.after (text.take round.index)
  if round.isOver then .noViableAlternative place.character place.line
  else .unexpectedEnd place.line

end Round

/-- The tokens cut off a text, and the error if that ended early. -/
structure Scanned where
  tokens : List Token
  failure : Option ScanError

/-- Cuts tokens off a text that begins at some position of the input, one in each round. -/
def scanFrom (automata : List Dfa) (position : Position) (text : List Char) : Scanned :=
  match text with
  | [] => ⟨[], none⟩
  | c :: rest =>
      let round := Round.run (automata.map .start) 0 c rest
      match round.winner? with
      | none => ⟨[], some (round.failure position (c :: rest))⟩
      | some (dfa, last) =>
          let lexeme := (c :: rest).take (last + 1)
          let scanned := scanFrom automata (position.after lexeme) ((c :: rest).drop (last + 1))
          { scanned with tokens := ⟨dfa.label, .ofList lexeme⟩ :: scanned.tokens }
  termination_by text.length
  decreasing_by
    simp only [List.drop_succ_cons, List.length_drop, List.length_cons]
    omega

/-- Cuts a whole input into tokens. An input without characters has none, with whatever
automata.
-/
def scanAll (automata : List Dfa) (input : List Char) : Scanned :=
  if input.isEmpty then ⟨[], none⟩
  else if automata.isEmpty then ⟨[], some .noRules⟩
  else scanFrom automata ⟨0, 0⟩ input

/-- The outcome of a scan: all tokens, or the error. -/
def Scanned.result (scanned : Scanned) : Except ScanError (List Token) :=
  match scanned.failure with
  | none => .ok scanned.tokens
  | some error => .error error

/-- The tokens of an input. -/
def scan (automata : List Dfa) (input : List Char) : Except ScanError (List Token) :=
  (scanAll automata input).result

end Munch
