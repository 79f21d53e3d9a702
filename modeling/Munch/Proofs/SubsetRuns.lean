import Mathlib.Tactic.Common
import Munch.Automaton.Subset

/-! Runs of the subset construction. Reading a word leads a nondeterministic automaton to a set of
states, and leads the deterministic one to the number of that set, with the sink for the empty set.
Nothing is assumed of the nondeterministic automaton.
-/

namespace Munch

namespace Nfa

-----------------------------------------------------------------------------------------
-- Sets of states after a word, and paths
-----------------------------------------------------------------------------------------

/-- The states that the automaton can be in after a word, from any state of a set. -/
def reach (nfa : Nfa) (set : StateSet) (word : List Char) : StateSet :=
  word.foldl nfa.advance set

/-- The states after a word, from the beginning. -/
def reached (nfa : Nfa) (word : List Char) : StateSet :=
  nfa.reach (nfa.closure nfa.start) word

/-- A word with a character at its end reaches what the character reaches from where the word leads.
-/
theorem reached_concat (nfa : Nfa) (word : List Char) (c : Char)
    : nfa.reached (word ++ [c]) = nfa.advance (nfa.reached word) c := by
  simp [reached, reach]

/-- No states lead to none. -/
theorem advance_empty (nfa : Nfa) (c : Char) : nfa.advance ∅ c = ∅ := by
  ext q
  simp [mem_advance]

/-- A state in the closure of another is at the end of a path that spells nothing, by induction on
the way there.
-/
theorem path_of_mem_closure {nfa : Nfa} {p q : State} (h : q ∈ nfa.closure p)
    : Path nfa.transitions p [] q := by
  induction mem_closure.mp h with
  | refl => exact .nil _
  | step first rest ih => exact .silent (mem_targets.mp first) (ih (mem_closure.mpr rest))

/-- The closure of a state has the closures of its silent targets in it. -/
theorem mem_closure_of_silent {nfa : Nfa} {p q r : State}
    (first : ⟨p, .epsilon, q⟩ ∈ nfa.transitions) (h : r ∈ nfa.closure q)
    : r ∈ nfa.closure p :=
  mem_closure.mpr (.step (mem_targets.mpr first) (mem_closure.mp h))

/-- A path that spells nothing stays in the closure of its first state, by induction on the path. -/
theorem mem_closure_of_path {nfa : Nfa} {p q : State} (h : Path nfa.transitions p [] q)
    : q ∈ nfa.closure p := by
  generalize spelled : ([] : List Char) = word at h
  induction h with
  | nil q => exact nfa.self_mem_closure q
  | silent first _ ih => exact mem_closure_of_silent first (ih spelled)
  | char => cases spelled

/-- A path that spells a word reads its first character behind silent transitions, by induction on
the path.
-/
theorem exists_of_path_cons {nfa : Nfa} {p r : State} {c : Char} {word : List Char}
    (h : Path nfa.transitions p (c :: word) r)
    : ∃ q ∈ nfa.closure p, ∃ s,
        ⟨q, .char c, s⟩ ∈ nfa.transitions ∧ Path nfa.transitions s word r := by
  generalize spelled : c :: word = letters at h
  induction h with
  | nil => cases spelled
  | silent first _ ih =>
      obtain ⟨q, silent, s, reading, rest⟩ := ih spelled
      exact ⟨q, mem_closure_of_silent first silent, s, reading, rest⟩
  | @char p s r d letters first rest _ =>
      obtain ⟨rfl, rfl⟩ := List.cons.inj spelled
      exact ⟨p, nfa.self_mem_closure p, s, first, rest⟩

/-- The set has all that its members reach silently. -/
def IsClosed (nfa : Nfa) (set : StateSet) : Prop :=
  ∀ p ∈ set, ∀ q ∈ nfa.closure p, q ∈ set

/-- Closures are closed, because silent ways can be joined. -/
theorem isClosed_closure (nfa : Nfa) (p : State) : nfa.IsClosed (nfa.closure p) := by
  intro q mem r silent
  exact mem_closure.mpr ((mem_closure.mp mem).trans (mem_closure.mp silent))

/-- A step leads to a closed set, as a union of closures. -/
theorem isClosed_advance (nfa : Nfa) (set : StateSet) (c : Char)
    : nfa.IsClosed (nfa.advance set c) := by
  intro q mem r silent
  obtain ⟨p, inSet, s, first, more⟩ := mem_advance.mp mem
  exact mem_advance.mpr ⟨p, inSet, s, first, nfa.isClosed_closure s q more r silent⟩

/-- From a closed set a word leads exactly where paths that spell it lead, by induction on the
word.
-/
theorem mem_reach {nfa : Nfa} {set : StateSet} {word : List Char} {r : State}
    (closed : nfa.IsClosed set)
    : r ∈ nfa.reach set word ↔ ∃ p ∈ set, Path nfa.transitions p word r := by
  induction word generalizing set with
  | nil =>
      constructor
      · exact fun mem => ⟨r, mem, .nil r⟩
      · intro h
        obtain ⟨p, mem, path⟩ := h
        exact closed p mem r (mem_closure_of_path path)
  | cons c word ih =>
      refine (ih (nfa.isClosed_advance set c)).trans ⟨?_, ?_⟩
      · intro h
        obtain ⟨q, mem, path⟩ := h
        obtain ⟨p, inSet, s, first, silent⟩ := mem_advance.mp mem
        exact ⟨p, inSet, .char first ((path_of_mem_closure silent).append path)⟩
      · intro h
        obtain ⟨p, inSet, path⟩ := h
        obtain ⟨q, silent, s, first, rest⟩ := exists_of_path_cons path
        exact ⟨s, mem_advance.mpr ⟨q, closed p inSet q silent, s, first,
          nfa.self_mem_closure s⟩, rest⟩

/-- A word reaches exactly the states at the ends of the paths that spell it. -/
theorem mem_reached {nfa : Nfa} {word : List Char} {q : State}
    : q ∈ nfa.reached word ↔ Path nfa.transitions nfa.start word q := by
  rw [reached, mem_reach (nfa.isClosed_closure nfa.start)]
  constructor
  · intro h
    obtain ⟨p, silent, path⟩ := h
    exact (path_of_mem_closure silent).append path
  · exact fun path => ⟨nfa.start, nfa.self_mem_closure nfa.start, path⟩

-----------------------------------------------------------------------------------------
-- The sets that the construction finds
-----------------------------------------------------------------------------------------

/-- Each set is found once. -/
theorem nodup_subsets (nfa : Nfa) (table : nfa.ClosureTable) : (nfa.subsets table).Nodup :=
  nodup_discover _

/-- The sets that are found are those to which steps lead from the closure of the start state. -/
theorem mem_subsets {nfa : Nfa} {table : nfa.ClosureTable} {set : StateSet}
    : set ∈ nfa.subsets table ↔ Reaches (nfa.nextSets table) (nfa.closure nfa.start) set := by
  simp [subsets, mem_discover, ClosureTable.closure_eq]

/-- The closure of the start state is found first. -/
theorem head?_subsets (nfa : Nfa) (table : nfa.ClosureTable)
    : (nfa.subsets table)[0]? = some (nfa.closure nfa.start) := by
  have first : [table.closure nfa.start].eraseDups <+: nfa.subsets table :=
    roots_isPrefix_discover _
  obtain ⟨rest, whole⟩ := first
  rw [← whole]
  simp [List.eraseDups_cons, ClosureTable.closure_eq]

/-- The empty set is not found, since only sets with members are followed. -/
theorem empty_not_mem_subsets (nfa : Nfa) (table : nfa.ClosureTable)
    : ∅ ∉ nfa.subsets table := by
  have kept (first next : StateSet) (step : next ∈ nfa.nextSets table first) (_ : first ≠ ∅)
      : next ≠ ∅ :=
    (mem_nextSets.mp step).1
  exact fun mem => (mem_subsets.mp mem).keeps kept (nfa.closure_ne_empty nfa.start) rfl

/-- The set is one of those found, or it is empty and stands for the sink. -/
def Tracked (nfa : Nfa) (table : nfa.ClosureTable) (set : StateSet) : Prop :=
  set ∈ nfa.subsets table ∨ set = ∅

/-- A character of the alphabet leads from a set that is found to one that is found, or to the sink.
-/
theorem tracked_advance {nfa : Nfa} {table : nfa.ClosureTable} {set : StateSet} {c : Char}
    (h : nfa.Tracked table set) (letter : c ∈ nfa.alphabet)
    : nfa.Tracked table (nfa.advance set c) := by
  by_cases dead : nfa.advance set c = ∅
  · exact Or.inr dead
  rcases h with found | rfl
  · refine Or.inl (mem_subsets.mpr ((mem_subsets.mp found).snoc ?_))
    exact mem_nextSets.mpr ⟨dead, c, letter, rfl⟩
  · exact absurd (nfa.advance_empty c) dead

/-- The same holds of words over the alphabet, by induction on the word. -/
theorem tracked_reach {nfa : Nfa} {table : nfa.ClosureTable} {set : StateSet}
    {word : List Char} (h : nfa.Tracked table set) (letters : ∀ c ∈ word, c ∈ nfa.alphabet)
    : nfa.Tracked table (nfa.reach set word) := by
  induction word generalizing set with
  | nil => exact h
  | cons c word ih =>
      have next := tracked_advance h (letters c (by simp))
      exact ih next fun d mem => letters d (by simp [mem])

/-- Every word over the alphabet reaches a set that is found, or the sink. -/
theorem tracked_reached {nfa : Nfa} {table : nfa.ClosureTable} {word : List Char}
    (letters : ∀ c ∈ word, c ∈ nfa.alphabet)
    : nfa.Tracked table (nfa.reached word) :=
  tracked_reach (Or.inl (mem_subsets.mpr (.refl _))) letters

end Nfa

namespace Dfa

open Nfa (Tracked)

-----------------------------------------------------------------------------------------
-- Runs of the constructed automaton
-----------------------------------------------------------------------------------------

/-- The only target is the one that a step takes. -/
theorem step_eq_some {dfa : Dfa} {q r : State} {c : Char}
    (only : ∀ s, ⟨q, c, s⟩ ∈ dfa.transitions ↔ s = r)
    : dfa.step q c = some r := by
  rw [step_eq_head?]
  cases targets : dfa.transitions.targets q c with
  | nil =>
      have mem := Transitions.mem_targets.mpr ((only r).mpr rfl)
      simp [targets] at mem
  | cons s more =>
      have stored := Transitions.mem_targets.mp (targets ▸ List.mem_cons_self)
      exact congrArg some ((only s).mp stored)

/-- Where no transition is stored there is no step. -/
theorem step_eq_none {dfa : Dfa} {q : State} {c : Char}
    (none : ∀ s, ⟨q, c, s⟩ ∉ dfa.transitions)
    : dfa.step q c = Option.none := by
  rw [step_eq_head?]
  cases targets : dfa.transitions.targets q c with
  | nil => rfl
  | cons s more =>
      exact absurd (Transitions.mem_targets.mp (targets ▸ List.mem_cons_self)) (none s)

section Construction

variable {nfa : Nfa} {label : String}

/-- The number of a set: its place among those found, or the number behind them. -/
def numberOf (nfa : Nfa) (set : StateSet) : State :=
  (nfa.subsets nfa.closureTable).idxOf set

/-- The number of the sink, behind those of all sets found. -/
def sinkNumber (nfa : Nfa) : State :=
  (nfa.subsets nfa.closureTable).length

/-- A set that is found stands at the place that its number tells. -/
theorem getElem?_numberOf {set : StateSet} (found : set ∈ nfa.subsets nfa.closureTable)
    : (nfa.subsets nfa.closureTable)[numberOf nfa set]? = some set := by
  have bound := List.idxOf_lt_length_of_mem found
  rw [numberOf, List.getElem?_eq_getElem bound, List.getElem_idxOf]

/-- The empty set has the number of the sink, as it is not found. -/
theorem numberOf_empty : numberOf nfa ∅ = sinkNumber nfa :=
  List.idxOf_eq_length (nfa.empty_not_mem_subsets _)

/-- The closure of the start state has the first number. -/
theorem numberOf_start : numberOf nfa (nfa.closure nfa.start) = 0 := by
  have first := nfa.head?_subsets nfa.closureTable
  cases sets : nfa.subsets nfa.closureTable with
  | nil => simp [sets] at first
  | cons set more =>
      obtain rfl : set = nfa.closure nfa.start := by simpa [sets] using first
      simp [numberOf, sets]

/-- No set but the empty one has the number of the sink. -/
theorem numberOf_eq_sink {set : StateSet} (tracked : Tracked nfa nfa.closureTable set)
    : numberOf nfa set = sinkNumber nfa ↔ set = ∅ := by
  constructor
  · intro same
    apply tracked.resolve_left
    intro found
    exact absurd same (Nat.ne_of_lt (List.idxOf_lt_length_of_mem found))
  · intro none
    rw [none]
    exact numberOf_empty

/-- A character of the alphabet leads from the number of a set to that of the next set. -/
theorem step_ofNfa {set : StateSet} {c : Char} (tracked : Tracked nfa nfa.closureTable set)
    (letter : c ∈ nfa.alphabet)
    : (ofNfa nfa label).step (numberOf nfa set) c = some (numberOf nfa (nfa.advance set c)) := by
  apply step_eq_some
  intro r
  apply mem_rows.trans
  rcases tracked with found | rfl
  · have here := getElem?_numberOf found
    have bound := List.idxOf_lt_length_of_mem found
    constructor
    · intro row
      obtain ⟨_, ⟨other, there, rfl⟩ | ⟨sink, _⟩⟩ := row
      · obtain rfl : set = other := by simpa [here] using there
        rfl
      · exact absurd sink (Nat.ne_of_lt bound)
    · intro next
      exact ⟨letter, Or.inl ⟨set, here, next⟩⟩
  · rw [nfa.advance_empty, numberOf_empty]
    constructor
    · intro row
      obtain ⟨_, ⟨other, there, _⟩ | ⟨_, sink⟩⟩ := row
      · simp [sinkNumber] at there
      · exact sink
    · intro sink
      exact ⟨letter, Or.inr ⟨rfl, sink⟩⟩

/-- No other character leads anywhere. -/
theorem step_ofNfa_eq_none {q : State} {c : Char} (foreign : c ∉ nfa.alphabet)
    : (ofNfa nfa label).step q c = none :=
  step_eq_none fun _ stored => foreign (mem_rows.mp stored).1

/-- From the number of a set, a word over the alphabet leads to the number of the set that it
reaches. By induction on the word.
-/
theorem runFrom_ofNfa {set : StateSet} {word : List Char}
    (tracked : Tracked nfa nfa.closureTable set) (letters : ∀ c ∈ word, c ∈ nfa.alphabet)
    : (ofNfa nfa label).runFrom (numberOf nfa set) word
      = some (numberOf nfa (nfa.reach set word)) := by
  induction word generalizing set with
  | nil => rfl
  | cons c word ih =>
      have letter := letters c (by simp)
      simp only [runFrom, step_ofNfa tracked letter, Option.bind_some]
      exact ih (Nfa.tracked_advance tracked letter) fun d mem => letters d (by simp [mem])

/-- A run over the alphabet ends in the number of the set that the word leads to. -/
theorem run_ofNfa {word : List Char} (letters : ∀ c ∈ word, c ∈ nfa.alphabet)
    : (ofNfa nfa label).run word = some (numberOf nfa (nfa.reached word)) := by
  have start : (ofNfa nfa label).start = numberOf nfa (nfa.closure nfa.start) :=
    numberOf_start.symm
  rw [run, start]
  exact runFrom_ofNfa (Or.inl (Nfa.mem_subsets.mpr (.refl _))) letters

/-- A run stops at the first character outside the alphabet. -/
theorem run_ofNfa_eq_none {word : List Char} (foreign : ∃ c ∈ word, c ∉ nfa.alphabet)
    : (ofNfa nfa label).run word = none := by
  obtain ⟨c, mem, foreign⟩ := foreign
  obtain ⟨front, back, rfl⟩ := List.append_of_mem mem
  rw [run, runFrom_append]
  cases (ofNfa nfa label).runFrom _ front with
  | none => rfl
  | some q => simp [runFrom, step_ofNfa_eq_none foreign]

/-- The number of a set is a sink only if the set is empty. -/
theorem isSink_numberOf {set : StateSet} (tracked : Tracked nfa nfa.closureTable set)
    : (ofNfa nfa label).isSink (numberOf nfa set) = true ↔ set = ∅ := by
  rw [isSink_iff, ← numberOf_eq_sink tracked]
  exact SortedSet.mem_singleton

/-- The number of a set is final if the set has the accepting state. -/
theorem isFinal_numberOf {set : StateSet} (tracked : Tracked nfa nfa.closureTable set)
    : (ofNfa nfa label).isFinal (numberOf nfa set) = true ↔ nfa.accept ∈ set := by
  rw [isFinal_iff]
  apply mem_finalNumbers.trans
  rcases tracked with found | rfl
  · simp [getElem?_numberOf found]
  · simp [numberOf_empty, sinkNumber]

/-- The constructed automaton accepts the words over the alphabet for which the set reached has the
accepting state.
-/
theorem accepts_ofNfa {word : List Char}
    : (ofNfa nfa label).accepts word = true
      ↔ (∀ c ∈ word, c ∈ nfa.alphabet) ∧ nfa.accept ∈ nfa.reached word := by
  by_cases letters : ∀ c ∈ word, c ∈ nfa.alphabet
  · have tracked : Tracked nfa nfa.closureTable (nfa.reached word) :=
      Nfa.tracked_reached letters
    have live (final : nfa.accept ∈ nfa.reached word) : nfa.reached word ≠ ∅ := by
      intro dead
      simp [dead] at final
    rw [accepts, run_ofNfa letters, Option.any_some, Bool.and_eq_true, Bool.not_eq_true',
      ← Bool.not_eq_true, isSink_numberOf tracked, isFinal_numberOf tracked]
    exact ⟨fun h => ⟨letters, h.2⟩, fun h => ⟨live h.2, h.2⟩⟩
  · simp only [letters, false_and, iff_false]
    push Not at letters
    simp [accepts, run_ofNfa_eq_none letters]

end Construction

end Dfa

end Munch
