import Mathlib.Tactic.Common
import Munch.Automaton.Expression
import Munch.Proofs.Residuals
import Munch.Proofs.SubsetRuns

/-! Compiled expressions accept their language. Thompson's construction keeps to its own states and
its own alphabet, so the subset construction on it neither fails nor loses a word.
-/

namespace Munch

open Regex (Matches)

namespace Nfa

/-- Every transition stays below the number of states. -/
theorem lt_stateCount_of_mem {tree : Regex} {t : Transition Symbol}
    (h : t ∈ (ofRegex tree).transitions)
    : t.source < (ofRegex tree).stateCount ∧ t.target < (ofRegex tree).stateCount := by
  obtain ⟨⟨_, source⟩, ⟨_, target⟩⟩ := Fragment.owns_of_mem h
  rw [Nat.zero_add] at source target
  exact ⟨source, target⟩

/-- No character leads out of the states that the automaton owns, from whatever sets. -/
theorem ownsAll_ofRegex (tree : Regex) (sets : List StateSet)
    : (ofRegex tree).OwnsAll sets := by
  have start := (Fragment.owns_entry 0 tree).2
  rw [Nat.zero_add] at start
  refine ⟨start, ?_⟩
  intro set _ c _
  simp only [strays, List.any_eq_false]
  intro q _ stray
  obtain ⟨r, target, outside⟩ := List.any_eq_true.mp stray
  have inside := (lt_stateCount_of_mem (mem_targets.mp target)).2
  exact Nat.not_lt.mpr (of_decide_eq_true outside) inside

/-- A path reads characters of the alphabet only, by induction on the path. -/
theorem mem_alphabet_of_path {tree : Regex} {p q : State} {word : List Char}
    (path : Path (ofRegex tree).transitions p word q)
    : ∀ c ∈ word, c ∈ (ofRegex tree).alphabet := by
  induction path with
  | nil => simp
  | silent _ _ ih => exact ih
  | char first _ ih =>
      intro d mem
      rcases List.mem_cons.mp mem with rfl | mem
      · exact Fragment.mem_alphabet_of_mem first
      · exact ih d mem

/-- The paths through the whole automaton spell the words of the language. -/
theorem path_accept_iff {tree : Regex} {word : List Char}
    : Path (ofRegex tree).transitions (ofRegex tree).start word (ofRegex tree).accept
      ↔ Matches tree word :=
  (Fragment.path_exit_iff (Fragment.owns_entry 0 tree)).trans Fragment.residual_entry

-----------------------------------------------------------------------------------------
-- Walks, transition by transition
-----------------------------------------------------------------------------------------

/-- The transitions are stored, and each of them starts where the one before it has led. -/
def IsWalk (ts : Transitions Symbol) : State → List (Transition Symbol) → State → Prop
  | p, [], q => p = q
  | p, t :: walk, q => t ∈ ts ∧ t.source = p ∧ IsWalk ts t.target walk q

/-- The characters that some transitions read, in order. -/
def lettersOf (walk : List (Transition Symbol)) : List Char :=
  walk.flatMap (·.symbol.spelling)

/-- Every path is a walk that reads the same word, and every walk is a path, by induction on either.
-/
theorem path_iff_exists_walk {ts : Transitions Symbol} {p q : State} {word : List Char}
    : Path ts p word q ↔ ∃ walk, IsWalk ts p walk q ∧ lettersOf walk = word := by
  constructor
  · intro path
    induction path with
    | nil q => exact ⟨[], rfl, rfl⟩
    | silent first _ ih | char first _ ih =>
        obtain ⟨walk, onward, rfl⟩ := ih
        exact ⟨_ :: walk, ⟨first, rfl, onward⟩, rfl⟩
  · intro h
    obtain ⟨walk, way, rfl⟩ := h
    induction walk generalizing p with
    | nil =>
        obtain rfl : p = q := way
        exact .nil p
    | cons t walk ih =>
        obtain ⟨_, symbol, _⟩ := t
        obtain ⟨stored, rfl, onward⟩ := way
        cases symbol with
        | epsilon => exact .silent stored (ih onward)
        | char c => exact .char stored (ih onward)

/-- The walks through the automaton of an expression, from its start state to its accepting state,
read exactly the words of the language.
-/
theorem exists_walk_ofRegex_iff_matches (tree : Regex) (word : List Char)
    : (∃ walk,
        IsWalk (ofRegex tree).transitions (ofRegex tree).start walk (ofRegex tree).accept
        ∧ lettersOf walk = word)
      ↔ Matches tree word :=
  path_iff_exists_walk.symm.trans path_accept_iff

end Nfa

namespace Dfa

/-- The automaton of an expression keeps to its states, so the subset construction succeeds on it.
-/
theorem ofNfa?_ofRegex (tree : Regex) (label : String)
    : ofNfa? (.ofRegex tree) label = some (ofTree tree label) :=
  if_pos (Nfa.ownsAll_ofRegex tree _)

/-- The automaton of a tree accepts the language of the tree. -/
theorem accepts_ofTree {tree : Regex} {label : String} {word : List Char}
    : (ofTree tree label).accepts word = true ↔ Matches tree word := by
  have spelled : (Nfa.ofRegex tree).accept ∈ (Nfa.ofRegex tree).reached word
      ↔ Matches tree word :=
    Nfa.mem_reached.trans Nfa.path_accept_iff
  rw [ofTree, accepts_ofNfa, spelled]
  refine ⟨And.right, fun matched => ⟨?_, matched⟩⟩
  exact Nfa.mem_alphabet_of_path (Nfa.mem_reached.mp (spelled.mpr matched))

/-- An expression that reads as a tree has an automaton: the subset construction finds no state
outside its range, and the automaton accepts exactly the words of the tree's language.
-/
theorem ofRegex_accepts_iff_matches {text label : String} {tree : Regex}
    (parsed : Regex.parse text = .ok tree)
    : ∃ dfa,
        ofRegex text label = .ok dfa
        ∧ ofNfa? (.ofRegex tree) label = some dfa
        ∧ ∀ word, dfa.accepts word = true ↔ Matches tree word := by
  refine ⟨ofTree tree label, ?_, ofNfa?_ofRegex tree label, fun word => accepts_ofTree⟩
  rw [ofRegex, parsed]
  rfl

/-- Repetitions within a repetition: `(a*)*b` takes `aab`, and neither `aba` nor the empty word. -/
theorem accepts_nested_repetitions
    : ∃ dfa,
        ofRegex "(a*)*b" "WORD" = .ok dfa
        ∧ dfa.accepts ['a', 'a', 'b'] = true
        ∧ dfa.accepts ['a', 'b', 'a'] = false
        ∧ dfa.accepts [] = false := by
  have parsed : Regex.parse "(a*)*b"
      = .ok (.concat (.star (.star (.literal 'a'))) (.literal 'b')) := by
    decide +kernel
  obtain ⟨dfa, compiled, _, language⟩ := @ofRegex_accepts_iff_matches _ "WORD" _ parsed
  have ends (word : List Char) (h : dfa.accepts word = true) : word.getLast? = some 'b' := by
    obtain ⟨front, back, rfl, _, rfl⟩ := (language word).mp h
    simp
  refine ⟨dfa, compiled, (language _).mpr ?_, ?_, ?_⟩
  · refine ⟨['a', 'a'], ['b'], rfl, ⟨[['a', 'a']], rfl, ?_⟩, rfl⟩
    simp only [List.mem_singleton, forall_eq]
    exact ⟨[['a'], ['a']], rfl, by simp⟩
  · exact Bool.eq_false_iff.mpr fun h => by simpa using ends _ h
  · exact Bool.eq_false_iff.mpr fun h => by simpa using ends _ h

end Dfa

end Munch
