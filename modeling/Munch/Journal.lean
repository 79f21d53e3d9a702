import Munch.Lexer.Basic
import Munch.Text.Quoted

/-! Journals: what the library reports on its way to a result. Each operation here does the same as
the one without a journal, and says so: `value_compile`, `value_determinise`, `value_ofRules`,
`value_ofListings` and `value_scan` state that the value is the same.
-/

namespace Munch

/-- Something worth reporting. -/
inductive Event where
  | compiledNfa (states transitions : Nat)
  | discoveredSet (number : Nat) (set : StateSet)
  | builtDfa (label : String) (states symbols : Nat)
  | compiledRule (label : String) (states : Nat)
  | readAutomata (count : Nat)
  | foundToken (token : Token) (character : Nat)
  | scanFailed (tokens : Nat) (error : ScanError)

/-- How much detail an event adds. -/
inductive Level where
  | debug
  | trace
  deriving DecidableEq

namespace Event

/-- Steps that may be many are details. -/
def level : Event → Level
  | .discoveredSet _ _ | .foundToken _ _ => .trace
  | _ => .debug

/-- The text in quotes, all on one line. -/
def quoted (text : String) : String := .ofList (Text.quoted text.toList)

/-- What the event says to a user. -/
def message : Event → String
  | .compiledNfa states transitions =>
      "compiled NFA with " ++ toString states ++ " states and " ++ toString transitions
        ++ " transitions"
  | .discoveredSet number set =>
      "discovered DFA state " ++ toString number ++ " = \x7b" ++ .ofList set.digits ++ "\x7d"
  | .builtDfa label states symbols =>
      "built DFA `" ++ label ++ "` with " ++ toString states ++ " states over "
        ++ toString symbols ++ " symbols"
  | .compiledRule label states =>
      "compiled rule " ++ label ++ " into " ++ toString states ++ " states"
  | .readAutomata count => "read " ++ toString count ++ " codified automata"
  | .foundToken token character =>
      "token Token \x7b label: " ++ quoted token.label ++ ", lexeme: " ++ quoted token.lexeme
        ++ " \x7d at character " ++ toString character
  | .scanFailed tokens error =>
      "scan failed after " ++ toString tokens ++ " tokens: " ++ error.message

end Event

/-- A value with the events on the way to it, in order. -/
structure Journaled (α : Type) where
  value : α
  events : List Event

namespace Journaled

variable {α β ε : Type}

instance : Monad Journaled where
  pure value := ⟨value, []⟩
  bind first next :=
    let second := next first.value
    ⟨second.value, first.events ++ second.events⟩

/-- Returning a value reports nothing and leaves the value as it is. -/
@[simp]
theorem value_pure (a : α) : (pure a : Journaled α).value = a := rfl

/-- The value of two steps is the one of the second step after the value of the first. -/
@[simp]
theorem value_bind (first : Journaled α) (next : α → Journaled β)
    : (first >>= next).value = (next first.value).value := rfl

/-- The event alone. -/
def report (event : Event) : Journaled Unit := ⟨(), [event]⟩

/-- Goes on with a result, if it is no error. -/
def andThen (first : Journaled (Except ε α)) (next : α → Journaled (Except ε β))
    : Journaled (Except ε β) := do
  match ← first with
  | .ok a => next a
  | .error e => return .error e

/-- Going on from a result has the value of going on without a journal. -/
@[simp]
theorem value_andThen (first : Journaled (Except ε α)) (next : α → Journaled (Except ε β))
    : (first.andThen next).value = first.value >>= fun a => (next a).value := by
  unfold andThen
  rw [value_bind]
  cases first.value <;> rfl

/-- The results for all elements of a list, up to the first error. -/
def collect (f : α → Journaled (Except ε β)) : List α → Journaled (Except ε (List β))
  | [] => return .ok []
  | a :: rest => (f a).andThen fun b => (collect f rest).andThen fun more => return .ok (b :: more)

/-- Collecting results has the value of the collection without a journal, by induction on the list.
-/
theorem value_collect (f : α → Journaled (Except ε β)) (items : List α)
    : (collect f items).value = items.mapM fun a => (f a).value := by
  induction items with
  | nil => rfl
  | cons a rest ih =>
      rw [List.mapM_cons]
      simp only [collect, value_andThen, value_pure, ih]
      rfl

/-- The automaton of an expression. -/
def compile (tree : Regex) : Journaled Nfa := do
  let nfa := Nfa.ofRegex tree
  report (.compiledNfa nfa.stateCount nfa.transitions.size)
  return nfa

/-- With a journal an expression has the same automaton. -/
theorem value_compile (tree : Regex) : (compile tree).value = .ofRegex tree := rfl

/-- The sets met by a construction that halts where a character strays for the first time: those
reached from all sets before the one in question, and those reached from that one by the
characters before the one that strays.
-/
def metSets (nfa : Nfa) (table : nfa.ClosureTable) (sets : List StateSet) : List StateSet :=
  let letters := nfa.alphabet.toList
  let sound := fun set => letters.all fun c => !nfa.strays set c
  let reached := fun set =>
    (letters.takeWhile fun c => !nfa.strays set c).map (table.advance set)
  let followed := (sets.takeWhile sound).flatMap reached
  let partly := ((sets.dropWhile sound).take 1).flatMap reached
  ((sets.take 1 ++ followed ++ partly).filter (!·.isEmpty)).eraseDups

/-- The reports on sets that are discovered, numbered in order. -/
def discoveries (sets : List StateSet) : List Event :=
  sets.zipIdx.map fun (set, number) => .discoveredSet number set

/-- The deterministic automaton on sets that are discovered already. -/
def build (nfa : Nfa) (table : nfa.ClosureTable) (sets : List StateSet) (label : String)
    : Journaled Dfa :=
  let dfa := Dfa.ofSubsets nfa table sets label
  ⟨dfa, discoveries sets ++ [.builtDfa label dfa.stateCount dfa.alphabet.length]⟩

/-- The deterministic automaton that follows a nondeterministic one. -/
def determinise (nfa : Nfa) (label : String) : Journaled Dfa :=
  let table := nfa.closureTable
  build nfa table (nfa.subsets table) label

/-- With a journal the subset construction makes the same automaton. -/
theorem value_determinise (nfa : Nfa) (label : String)
    : (determinise nfa label).value = Dfa.ofNfa nfa label := rfl

/-- The deterministic automaton that follows a nondeterministic one, as long as that one keeps to
the states that it owns.
-/
def determinise? (nfa : Nfa) (label : String) : Journaled (Option Dfa) :=
  let table := nfa.closureTable
  let sets := nfa.subsets table
  if nfa.OwnsAll sets then some <$> build nfa table sets label
  else if nfa.start < nfa.stateCount then ⟨none, discoveries (metSets nfa table sets)⟩
  else return none

/-- With a journal the subset construction fails on the same automata and makes the same ones of the
others.
-/
theorem value_determinise? (nfa : Nfa) (label : String)
    : (determinise? nfa label).value = Dfa.ofNfa? nfa label := by
  unfold determinise? Dfa.ofNfa?
  dsimp only
  split
  · rfl
  · split <;> rfl

/-- The deterministic automaton of a tree, or the error in place of the tree. -/
def ofTree (tree : Except ε Regex) (label : String) : Journaled (Except ε Dfa) :=
  andThen (return tree) fun tree => do
    let nfa ← compile tree
    return .ok (← determinise nfa label)

/-- The automaton of a rule. -/
def ofRule (rule : Rule) : Journaled (Except Rule.Error Dfa) :=
  let tree := (Regex.parse rule.pattern).mapError (.badPattern rule.label)
  (ofTree tree rule.label).andThen fun dfa => do
    report (.compiledRule rule.label dfa.stateCount)
    return .ok dfa

/-- With a journal a rule is compiled to the same automaton, or it fails with the same error. -/
theorem value_ofRule (rule : Rule) : (ofRule rule).value = rule.compile := by
  simp only [ofRule, ofTree, value_andThen, value_pure, value_bind, value_determinise,
    value_compile, Rule.compile, Dfa.ofRegex, Dfa.ofTree]
  cases Regex.parse rule.pattern <;> rfl

/-- The lexer of some rules. -/
def ofRules (rules : List Rule) : Journaled (Except Rule.Error Lexer) :=
  (collect ofRule rules).andThen fun automata => return .ok ⟨automata⟩

/-- With a journal rules make the same lexer, or they fail with the same error. -/
theorem value_ofRules (rules : List Rule) : (ofRules rules).value = Lexer.ofRules rules := by
  simp only [ofRules, value_andThen, value_collect, value_ofRule]
  rfl

/-- The lexer of the rules in a text. -/
def ofRuleText (text : String) : Journaled (Except Rule.Error Lexer) :=
  andThen (return Rule.ofText text) ofRules

/-- With a journal a text of rules makes the same lexer, or it fails with the same error. -/
theorem value_ofRuleText (text : String) : (ofRuleText text).value = Lexer.ofRuleText text := by
  simp only [ofRuleText, value_andThen, value_pure, value_ofRules]
  rfl

/-- The automata listed in a text. -/
def ofListings (text : String) : Journaled (Except Listing.Error (List Dfa)) :=
  andThen (return Dfa.ofListings text) fun automata => do
    report (.readAutomata automata.length)
    return .ok automata

/-- With a journal the same automata are read from a text of listings, or the same error is met. -/
theorem value_ofListings (text : String) : (ofListings text).value = Dfa.ofListings text := by
  simp only [ofListings, value_andThen, value_pure, value_bind]
  cases Dfa.ofListings text <;> rfl

/-- The reports on tokens that stand one after the other from some character on. -/
def findings (character : Nat) : List Token → List Event
  | [] => []
  | token :: more =>
      .foundToken token character :: findings (character + token.lexeme.length) more

/-- The tokens of an input. A lack of automata is not reported. -/
def scan (automata : List Dfa) (input : List Char) : Journaled (Except ScanError (List Token)) :=
  let scanned := scanAll automata input
  let failures :=
    match scanned.failure with
    | none | some .noRules => []
    | some error => [Event.scanFailed scanned.tokens.length error]
  ⟨scanned.result, findings 0 scanned.tokens ++ failures⟩

/-- With a journal an input is cut into the same tokens, or it fails with the same error. -/
theorem value_scan (automata : List Dfa) (input : List Char)
    : (scan automata input).value = Munch.scan automata input := rfl

end Journaled

end Munch
