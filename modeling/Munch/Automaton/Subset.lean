import Munch.Automaton.Dfa

/-! The subset construction: a deterministic automaton whose states are numbers of sets of states of
a nondeterministic one. The sets are numbered in the order in which a breadth-first discovery finds
them, symbols in ascending order, and the empty set comes last as the only sink. Memory is not
modelled: a program that keeps a closure for every state that an automaton owns, however many these
are, may run out of it. Here there are only the closures that are used.
-/

namespace Munch

namespace Nfa

/-- The states that the automaton can be in after one more character, from any state of a set,
silent transitions included.
-/
def advance (nfa : Nfa) (set : StateSet) (c : Char) : StateSet :=
  .ofList <| set.toList.flatMap fun q =>
    (nfa.targets q (.char c)).flatMap fun r => (nfa.closure r).toList

/-- After a character the automaton is in the closures of the targets of the set. -/
theorem mem_advance {nfa : Nfa} {set : StateSet} {c : Char} {q : State}
    : q ∈ nfa.advance set c
      ↔ ∃ p ∈ set, ∃ r, ⟨p, .char c, r⟩ ∈ nfa.transitions ∧ q ∈ nfa.closure r := by
  simp [advance, mem_targets, SortedSet.mem_toList]

/-- Closures of single states, kept for repeated use. -/
structure ClosureTable (nfa : Nfa) where
  closures : Std.HashMap State StateSet
  eq_closure : ∀ q set, closures[q]? = some set → set = nfa.closure q

namespace ClosureTable

variable {nfa : Nfa}

/-- The table without entries. -/
def empty : ClosureTable nfa := ⟨∅, by simp⟩

/-- The table with an entry for one more state. -/
def insert (table : ClosureTable nfa) (state : State) : ClosureTable nfa :=
  if state ∈ table.closures then table
  else
    {
      closures := table.closures.insert state (nfa.closure state),
      eq_closure := fun q set found => by
        rw [Std.HashMap.getElem?_insert] at found
        split at found
        · simp_all
        · exact table.eq_closure q set found
    }

/-- The closure of a state, from the table if it is there. -/
def closure (table : ClosureTable nfa) (state : State) : StateSet :=
  match table.closures[state]? with
  | some set => set
  | none => nfa.closure state

/-- The table tells the closure of every state, whether it has an entry for it or not. -/
theorem closure_eq (table : ClosureTable nfa) : table.closure = nfa.closure := by
  funext q
  unfold closure
  split
  · exact table.eq_closure q _ ‹_›
  · rfl

/-- The step of a set of states, by the closures in the table. -/
def advance (table : ClosureTable nfa) (set : StateSet) (c : Char) : StateSet :=
  .ofList <| set.toList.flatMap fun q =>
    (nfa.targets q (.char c)).flatMap fun r => (table.closure r).toList

/-- With the table the step of a set is the same. -/
theorem advance_eq (table : ClosureTable nfa) : table.advance = nfa.advance := by
  funext set c
  rw [advance, closure_eq, Nfa.advance]

end ClosureTable

/-- The closures that the subset construction uses: those of the start state and of the targets
of characters.
-/
def closureTable (nfa : Nfa) : ClosureTable nfa :=
  let targets := (nfa.transitions.toList.filter (·.symbol ≠ .epsilon)).map Transition.target
  (nfa.start :: targets).foldl ClosureTable.insert .empty

/-- The sets reached from a set by one character each, in the order of the alphabet, as far as
they have members.
-/
def nextSets (nfa : Nfa) (table : ClosureTable nfa) (set : StateSet) : List StateSet :=
  (nfa.alphabet.toList.map (table.advance set)).filter (!·.isEmpty)

/-- A step leads to states at the ends of transitions only, because a way along silent transitions
from the target of one ends at the target of one.
-/
theorem mem_states_of_mem_advance {nfa : Nfa} {set : StateSet} {c : Char} {q : State}
    (h : q ∈ nfa.advance set c)
    : q ∈ nfa.transitions.states := by
  obtain ⟨p, _, r, first, silent⟩ := mem_advance.mp h
  have target : r ∈ nfa.transitions.states :=
    Transitions.mem_states.mpr ⟨_, first, Or.inr rfl⟩
  refine (mem_closure.mp silent).keeps (fun p q step _ => ?_) target
  exact Transitions.mem_states.mpr ⟨_, mem_targets.mp step, Or.inr rfl⟩

/-- Every set that is reached is a subset of the states at the ends of transitions, and of these
there are finitely many.
-/
theorem finitelyBranching_nextSets (nfa : Nfa) (table : ClosureTable nfa)
    : FinitelyBranching (nfa.nextSets table) := by
  refine ⟨nfa.transitions.states.subsets, fun set next mem => ?_⟩
  obtain ⟨reached, _⟩ := List.mem_filter.mp mem
  obtain ⟨c, _, rfl⟩ := List.mem_map.mp reached
  rw [ClosureTable.advance_eq]
  exact SortedSet.mem_subsets fun _ mem => mem_states_of_mem_advance mem

/-- The next sets are those that are reached by a character of the alphabet and have members. -/
theorem mem_nextSets {nfa : Nfa} {table : ClosureTable nfa} {set next : StateSet}
    : next ∈ nfa.nextSets table set
      ↔ next ≠ ∅ ∧ ∃ c ∈ nfa.alphabet, nfa.advance set c = next := by
  simp [nextSets, ClosureTable.advance_eq, ← SortedSet.mem_toList, ← SortedSet.isEmpty_iff,
    and_comm]

/-- The sets of states that the automaton can be in, in the order of discovery: first the closure
of the start state, and then what is reached from the earlier sets.
-/
def subsets (nfa : Nfa) (table : ClosureTable nfa) : List StateSet :=
  discover (nfa.nextSets table) (nfa.finitelyBranching_nextSets table) [table.closure nfa.start]

/-- Reading the character in some state of the set leads to a state that the automaton does not
own.
-/
def strays (nfa : Nfa) (set : StateSet) (c : Char) : Bool :=
  set.toList.any fun q => (nfa.targets q (.char c)).any fun r => nfa.stateCount ≤ r

/-- The start state is one of the states that the automaton owns, and so are the targets of all
characters of the alphabet in the given sets.
-/
def OwnsAll (nfa : Nfa) (sets : List StateSet) : Prop :=
  nfa.start < nfa.stateCount
    ∧ ∀ set ∈ sets, ∀ c ∈ nfa.alphabet.toList, nfa.strays set c = false

instance (nfa : Nfa) (sets : List StateSet) : Decidable (nfa.OwnsAll sets) :=
  inferInstanceAs (Decidable (_ ∧ _))

end Nfa

namespace Dfa

/-- The rows of the sets in their order, one transition for each symbol, and behind them the row
of the sink. A set that is not among the given ones, as the empty set, counts as the sink.
-/
def rows (nfa : Nfa) (table : nfa.ClosureTable) (sets : List StateSet) : Transitions Char :=
  let alphabet := nfa.alphabet.toList
  let sink := sets.length
  let found := sets.zipIdx.flatMap fun (set, id) =>
    alphabet.map fun c => ⟨id, c, sets.idxOf (table.advance set c)⟩
  ⟨found ++ alphabet.map fun c => ⟨sink, c, sink⟩⟩

/-- The numbers of the sets with the accepting state. -/
def finalNumbers (nfa : Nfa) (sets : List StateSet) : StateSet :=
  .ofList ((sets.zipIdx.filter fun (set, _) => nfa.accept ∈ set).map Prod.snd)

/-- A transition of the rows leads from the number of a set to the number of the set that it
reaches, or it stays in the sink.
-/
theorem mem_rows {nfa : Nfa} {table : nfa.ClosureTable} {sets : List StateSet} {q r : State}
    {c : Char}
    : ⟨q, c, r⟩ ∈ rows nfa table sets
      ↔ c ∈ nfa.alphabet
        ∧ ((∃ set, sets[q]? = some set ∧ r = sets.idxOf (nfa.advance set c))
          ∨ (q = sets.length ∧ r = sets.length)) := by
  simp only [rows, ← Transitions.mem_toList, Nfa.ClosureTable.advance_eq, List.mem_append,
    List.mem_flatMap, List.mem_map, Prod.exists, List.mem_zipIdx_iff_getElem?,
    Transition.mk.injEq, SortedSet.mem_toList]
  constructor
  · rintro (⟨set, _, found, _, letter, rfl, rfl, rfl⟩ | ⟨_, letter, rfl, rfl, rfl⟩)
    · exact ⟨letter, Or.inl ⟨set, found, rfl⟩⟩
    · exact ⟨letter, Or.inr ⟨rfl, rfl⟩⟩
  · rintro ⟨letter, ⟨set, found, rfl⟩ | ⟨rfl, rfl⟩⟩
    · exact Or.inl ⟨set, q, found, c, letter, rfl, rfl, rfl⟩
    · exact Or.inr ⟨c, letter, rfl, rfl, rfl⟩

/-- The final numbers are those of the sets with the accepting state. -/
theorem mem_finalNumbers {nfa : Nfa} {sets : List StateSet} {q : State}
    : q ∈ finalNumbers nfa sets ↔ ∃ set, sets[q]? = some set ∧ nfa.accept ∈ set := by
  simp [finalNumbers, List.mem_zipIdx_iff_getElem?, and_comm]

/-- The deterministic automaton whose states are the numbers of the given sets, with the number
after the last one as the sink.
-/
def ofSubsets (nfa : Nfa) (table : nfa.ClosureTable) (sets : List StateSet) (label : String)
    : Dfa where
  alphabet := nfa.alphabet.toList
  label := label
  start := 0
  finals := finalNumbers nfa sets
  states := .ofList (List.range (sets.length + 1))
  transitions := rows nfa table sets
  sinks := {sets.length}
  target_mem_sinks := by
    rintro ⟨q, c, r⟩ stored sink
    obtain rfl : q = sets.length := SortedSet.mem_singleton.mp sink
    obtain ⟨_, ⟨set, found, _⟩ | ⟨_, same⟩⟩ := mem_rows.mp stored
    · simp at found
    · exact SortedSet.mem_singleton.mpr same
  not_mem_sinks_of_mem_finals := by
    intro q final sink
    obtain rfl : q = sets.length := SortedSet.mem_singleton.mp sink
    obtain ⟨set, found, _⟩ := mem_finalNumbers.mp final
    simp at found

/-- The deterministic automaton that follows a nondeterministic one, whatever states that one
mentions.
-/
def ofNfa (nfa : Nfa) (label : String) : Dfa :=
  let table := nfa.closureTable
  ofSubsets nfa table (nfa.subsets table) label

/-- The deterministic automaton that follows a nondeterministic one, as long as that one keeps to
the states that it owns.
-/
def ofNfa? (nfa : Nfa) (label : String) : Option Dfa :=
  let table := nfa.closureTable
  let sets := nfa.subsets table
  if nfa.OwnsAll sets then some (ofSubsets nfa table sets label) else none

end Dfa

end Munch
