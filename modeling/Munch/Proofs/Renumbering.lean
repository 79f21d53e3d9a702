import Mathlib.Data.Set.Function
import Munch.Proofs.CompiledSinks
import Munch.Proofs.DiscoveryInStep

/-! Automata that differ in the numbers of their states and in how their transitions are stored. All
that the subset construction uses of a set of states is which words lead to it and whether it
accepts. So two automata in which words fall together in the same way are made into the same
deterministic one; and a renumbering changes neither what words fall together nor which are
accepted.
-/

namespace Munch

open List (Forall₂)

namespace Nfa

-----------------------------------------------------------------------------------------
-- Words fall together in the same way
-----------------------------------------------------------------------------------------

/-- Two words lead to the same states in the one automaton if they do in the other, and the words
that lead to no state, or to the accepting one, are the same.
-/
structure InStep (nfa other : Nfa) : Prop where
  alphabet : other.alphabet = nfa.alphabet
  same_iff
    : ∀ word word',
        nfa.statesAfter word = nfa.statesAfter word'
        ↔ other.statesAfter word = other.statesAfter word'
  empty_iff : ∀ word, nfa.statesAfter word = ∅ ↔ other.statesAfter word = ∅
  accept_iff
    : ∀ word, nfa.accept ∈ nfa.statesAfter word ↔ other.accept ∈ other.statesAfter word

/-- The two sets are where some word leads in the one automaton and in the other. -/
def ReachedTogether (nfa other : Nfa) (set set' : StateSet) : Prop :=
  ∃ word, nfa.reached word = set ∧ other.reached word = set'

section

variable {nfa other : Nfa} (inStep : nfa.InStep other)

include inStep

/-- Sets that are reached together are partners one to one, because words fall together in both
automata in the same way.
-/
theorem InStep.biUnique : Relator.BiUnique (ReachedTogether nfa other) := by
  constructor
  · intro set _ set' h h'
    obtain ⟨word, rfl, rfl⟩ := h
    obtain ⟨word', rfl, same⟩ := h'
    have together := statesAfter_eq_iff.mpr same.symm
    exact statesAfter_eq_iff.mp ((inStep.same_iff word word').mpr together)
  · intro _ set set' h h'
    obtain ⟨word, rfl, rfl⟩ := h
    obtain ⟨word', same, rfl⟩ := h'
    have together := statesAfter_eq_iff.mpr same.symm
    exact statesAfter_eq_iff.mp ((inStep.same_iff word word').mp together)

/-- Of two sets that are reached together either none is empty or both are. -/
theorem InStep.isEmpty_eq {set set' : StateSet} (h : ReachedTogether nfa other set set')
    : set.isEmpty = set'.isEmpty := by
  obtain ⟨word, rfl, rfl⟩ := h
  have same := inStep.empty_iff word
  rw [statesAfter_eq_empty_iff, statesAfter_eq_empty_iff] at same
  rw [Bool.eq_iff_iff, SortedSet.isEmpty_iff, SortedSet.isEmpty_iff, same]

omit inStep in
/-- Partners lead to partners by every character, namely to where the word leads with the character
at its end.
-/
theorem ReachedTogether.advance {set set' : StateSet} (h : ReachedTogether nfa other set set')
    (c : Char)
    : ReachedTogether nfa other (nfa.advance set c) (other.advance set' c) := by
  obtain ⟨word, rfl, rfl⟩ := h
  exact ⟨word ++ [c], reached_concat nfa word c, reached_concat other word c⟩

/-- Partners have partners as their next sets, in the same order. -/
theorem InStep.forall₂_nextSets {table : nfa.ClosureTable} {table' : other.ClosureTable}
    {set set' : StateSet} (h : ReachedTogether nfa other set set')
    : Forall₂ (ReachedTogether nfa other) (nfa.nextSets table set)
        (other.nextSets table' set') := by
  rw [nextSets, nextSets, inStep.alphabet, ClosureTable.advance_eq, ClosureTable.advance_eq]
  apply List.rel_filter
  · intro next next' h
    simp [inStep.isEmpty_eq h]
  · rw [List.forall₂_map_left_iff, List.forall₂_map_right_iff, List.forall₂_same]
    exact fun c _ => h.advance c

/-- Both constructions find the sets of the same words at the same places. -/
theorem InStep.forall₂_subsets (table : nfa.ClosureTable) (table' : other.ClosureTable)
    : Forall₂ (ReachedTogether nfa other) (nfa.subsets table) (other.subsets table') := by
  refine forall₂_discover inStep.biUnique (fun _ _ => inStep.forall₂_nextSets) (.cons ?_ .nil)
  rw [ClosureTable.closure_eq, ClosureTable.closure_eq]
  exact ⟨[], rfl, rfl⟩

end

end Nfa

namespace Dfa

open Nfa (ReachedTogether)

section

variable {nfa other : Nfa} (inStep : nfa.InStep other) {table : nfa.ClosureTable}
  {table' : other.ClosureTable} {sets sets' : List StateSet}
  (together : Forall₂ (ReachedTogether nfa other) sets sets')

include inStep together

/-- The rows are the same, as partners have the same numbers and lead to partners. -/
theorem rows_eq_of_inStep : rows nfa table sets = rows other table' sets' := by
  simp only [rows, Nfa.ClosureTable.advance_eq, inStep.alphabet, together.length_eq]
  refine congrArg (fun found => Transitions.mk (found ++ _)) ?_
  refine flatMap_zipIdx_eq_of_forall₂ together (fun set set' id h => ?_) 0
  refine List.map_congr_left fun c _ => ?_
  rw [idxOf_eq_of_forall₂ inStep.biUnique together (h.advance c)]

/-- The final numbers are the same, as of two partners both have the accepting state or none has it.
-/
theorem finalNumbers_eq_of_inStep : finalNumbers nfa sets = finalNumbers other sets' := by
  have accept {set set' : StateSet} (h : ReachedTogether nfa other set set')
      : nfa.accept ∈ set ↔ other.accept ∈ set' := by
    obtain ⟨word, rfl, rfl⟩ := h
    exact Nfa.mem_statesAfter.symm.trans ((inStep.accept_iff word).trans Nfa.mem_statesAfter)
  ext q
  rw [mem_finalNumbers, mem_finalNumbers]
  constructor
  · intro h
    obtain ⟨set, here, final⟩ := h
    obtain ⟨set', there, h⟩ := exists_getElem?_of_forall₂ together here
    exact ⟨set', there, (accept h).mp final⟩
  · intro h
    obtain ⟨set', there, final⟩ := h
    obtain ⟨set, here, h⟩ := exists_getElem?_of_forall₂ together.flip there
    exact ⟨set, here, (accept h).mpr final⟩

end

/-- The deterministic automaton depends on nothing but how words fall together. -/
theorem ofNfa_eq_of_inStep {nfa other : Nfa} (inStep : nfa.InStep other) (label : String)
    : ofNfa nfa label = ofNfa other label := by
  have together := inStep.forall₂_subsets nfa.closureTable other.closureTable
  have count : sinkNumber nfa = sinkNumber other := together.length_eq
  have start (nfa : Nfa) : (ofNfa nfa label).start = 0 := rfl
  have labels (nfa : Nfa) : (ofNfa nfa label).label = label := rfl
  have alphabet (nfa : Nfa) : (ofNfa nfa label).alphabet = nfa.alphabet.toList := rfl
  have states (nfa : Nfa)
      : (ofNfa nfa label).states = .ofList (List.range (sinkNumber nfa + 1)) := rfl
  have sinks (nfa : Nfa) : (ofNfa nfa label).sinks = {sinkNumber nfa} := rfl
  refine eq_of_parts ?_ ?_ ?_ (finalNumbers_eq_of_inStep inStep together) ?_
    (rows_eq_of_inStep inStep together) ?_
  · rw [alphabet, alphabet, inStep.alphabet]
  · rw [labels, labels]
  · rw [start, start]
  · rw [states, states, count]
  · rw [sinks, sinks, count]

end Dfa

-----------------------------------------------------------------------------------------
-- Other numbers, and another storage
-----------------------------------------------------------------------------------------

namespace Nfa

/-- The automaton mentions no state that it does not own. -/
structure KeepsToItsStates (nfa : Nfa) : Prop where
  start : nfa.start < nfa.stateCount
  accept : nfa.accept < nfa.stateCount
  ends : ∀ t ∈ nfa.transitions, t.source < nfa.stateCount ∧ t.target < nfa.stateCount

/-- The other automaton has other numbers for the states, and the same transitions between them in
any order and each any number of times.
-/
structure Renumbered (nfa other : Nfa) (rename : State → State) : Prop where
  bijective : Set.BijOn rename (Set.Iio nfa.stateCount) (Set.Iio nfa.stateCount)
  alphabet : other.alphabet = nfa.alphabet
  stateCount : other.stateCount = nfa.stateCount
  start : other.start = rename nfa.start
  accept : other.accept = rename nfa.accept
  transitions : ∀ t, t ∈ other.transitions ↔ t ∈ nfa.transitions.remap rename

section

variable {nfa other : Nfa} {rename : State → State} {word : List Char}

/-- Every path from the start ends at a state that the automaton owns. -/
theorem KeepsToItsStates.lt_of_path (kept : nfa.KeepsToItsStates) {q : State}
    (path : Path nfa.transitions nfa.start word q)
    : q < nfa.stateCount := by
  rcases mem_states_of_path path with rfl | mentioned
  · exact kept.start
  · obtain ⟨t, stored, rfl | rfl⟩ := Transitions.mem_states.mp mentioned
    · exact (kept.ends t stored).1
    · exact (kept.ends t stored).2

/-- An automaton that mentions only states of its own has no way out of them. -/
theorem KeepsToItsStates.not_goesAstray (kept : nfa.KeepsToItsStates) : ¬nfa.GoesAstray := by
  intro astray
  obtain start | ⟨_, _, _, _, _, _, _, stored, out⟩ := astray
  · exact Nat.not_le_of_lt kept.start start
  · exact Nat.not_le_of_lt (kept.ends _ stored).2 out

/-- A path stays one under the new numbers, by induction on it. -/
theorem Renumbered.path (h : nfa.Renumbered other rename) {p q : State}
    (path : Path nfa.transitions p word q)
    : Path other.transitions (rename p) word (rename q) := by
  have renamed {t : Transition Symbol} (stored : t ∈ nfa.transitions)
      : ⟨rename t.source, t.symbol, rename t.target⟩ ∈ other.transitions :=
    (h.transitions _).mpr (Transitions.mem_remap.mpr ⟨t, stored, rfl⟩)
  induction path with
  | nil => exact .nil _
  | silent first _ ih => exact .silent (renamed first) ih
  | char first _ ih => exact .char (renamed first) ih

/-- A transition from the new number of a state comes from one of that state. -/
theorem Renumbered.exists_of_mem (h : nfa.Renumbered other rename) (kept : nfa.KeepsToItsStates)
    {p r : State} {symbol : Symbol} (owned : p < nfa.stateCount)
    (stored : ⟨rename p, symbol, r⟩ ∈ other.transitions)
    : ∃ q < nfa.stateCount, ⟨p, symbol, q⟩ ∈ nfa.transitions ∧ rename q = r := by
  obtain ⟨⟨p', symbol', q⟩, stored', same⟩ := Transitions.mem_remap.mp ((h.transitions _).mp stored)
  obtain ⟨source, rfl, rfl⟩ := Transition.mk.inj same
  obtain ⟨owned', target⟩ := kept.ends _ stored'
  obtain rfl := h.bijective.injOn owned' owned source
  exact ⟨q, target, stored', rfl⟩

/-- A path under the new numbers was one before, by induction on it. -/
theorem Renumbered.exists_of_path (h : nfa.Renumbered other rename) (kept : nfa.KeepsToItsStates)
    {p r : State} (owned : p < nfa.stateCount) (path : Path other.transitions (rename p) word r)
    : ∃ q, Path nfa.transitions p word q ∧ rename q = r := by
  generalize begin : rename p = s at path
  induction path generalizing p with
  | nil => exact ⟨p, .nil p, begin⟩
  | silent first _ ih =>
      subst begin
      obtain ⟨q, owned', stored, begin⟩ := h.exists_of_mem kept owned first
      obtain ⟨last, rest, same⟩ := ih owned' begin
      exact ⟨last, .silent stored rest, same⟩
  | char first _ ih =>
      subst begin
      obtain ⟨q, owned', stored, begin⟩ := h.exists_of_mem kept owned first
      obtain ⟨last, rest, same⟩ := ih owned' begin
      exact ⟨last, .char stored rest, same⟩

/-- A word leads to the new numbers of the states that it led to. -/
theorem Renumbered.statesAfter_eq (h : nfa.Renumbered other rename)
    (kept : nfa.KeepsToItsStates) (word : List Char)
    : other.statesAfter word = rename '' nfa.statesAfter word := by
  ext r
  rw [statesAfter, Set.mem_ofPred_eq, h.start]
  constructor
  · exact h.exists_of_path kept kept.start
  · intro renamed
    obtain ⟨q, path, rfl⟩ := renamed
    exact h.path path

/-- A renumbered automaton is in step, since it has the same paths between the new numbers. -/
theorem Renumbered.inStep (h : nfa.Renumbered other rename) (kept : nfa.KeepsToItsStates)
    : nfa.InStep other := by
  have owned (word : List Char) : nfa.statesAfter word ⊆ Set.Iio nfa.stateCount :=
    fun _ path => kept.lt_of_path path
  have injective := h.bijective.injOn
  refine ⟨h.alphabet, fun word word' => ?_, fun word => ?_, fun word => ?_⟩
  · rw [h.statesAfter_eq kept, h.statesAfter_eq kept,
      injective.image_eq_image_iff (owned word) (owned word')]
  · rw [h.statesAfter_eq kept, Set.image_eq_empty]
  · rw [h.statesAfter_eq kept, h.accept, injective.mem_image_iff (owned word) kept.accept]

/-- The new numbers are numbers of states that the automaton owns. -/
theorem Renumbered.keepsToItsStates (h : nfa.Renumbered other rename)
    (kept : nfa.KeepsToItsStates)
    : other.KeepsToItsStates := by
  have owned {q : State} (lt : q < nfa.stateCount) : rename q < nfa.stateCount :=
    h.bijective.mapsTo lt
  refine ⟨?_, ?_, fun t stored => ?_⟩
  · rw [h.start, h.stateCount]
    exact owned kept.start
  · rw [h.accept, h.stateCount]
    exact owned kept.accept
  · obtain ⟨t, given, rfl⟩ := Transitions.mem_remap.mp ((h.transitions t).mp stored)
    rw [h.stateCount]
    exact ⟨owned (kept.ends t given).1, owned (kept.ends t given).2⟩

end

end Nfa

namespace Dfa

/-- The subset construction succeeds for every automaton that mentions its own states only. It gives
the same deterministic automaton whatever numbers the states have, and in whatever order and how
often the transitions are stored.
-/
theorem ofNfa?_renumbered {nfa other : Nfa} {rename : State → State}
    (kept : nfa.KeepsToItsStates) (renumbered : nfa.Renumbered other rename) (label : String)
    : ∃ dfa, ofNfa? nfa label = some dfa ∧ ofNfa? other label = some dfa := by
  have succeeds {nfa : Nfa} (kept : nfa.KeepsToItsStates)
      : ofNfa? nfa label = some (ofNfa nfa label) := by
    obtain ⟨dfa, built⟩ :=
      Option.ne_none_iff_exists'.mp (mt ofNfa?_eq_none_iff.mp kept.not_goesAstray)
    rw [built, eq_ofNfa_of_ofNfa? built]
  refine ⟨_, succeeds kept, ?_⟩
  rw [succeeds (renumbered.keepsToItsStates kept),
    ofNfa_eq_of_inStep (renumbered.inStep kept) label]

/-- The states of a cycle with a silent transition, numbered the other way round, and one of the
transitions twice.
-/
theorem ofNfa?_renumbered_cycle
    : let nfa : Nfa := {
        alphabet := .ofList ['a', 'b'], stateCount := 3, start := 0, accept := 2,
        transitions := ⟨[⟨0, .epsilon, 1⟩, ⟨1, .char 'a', 2⟩, ⟨2, .char 'b', 0⟩]⟩
      }
      let other : Nfa := {
        alphabet := .ofList ['b', 'a'], stateCount := 3, start := 2, accept := 0,
        transitions :=
          ⟨[⟨0, .char 'b', 2⟩, ⟨1, .char 'a', 0⟩, ⟨2, .epsilon, 1⟩, ⟨1, .char 'a', 0⟩]⟩
      }
      nfa.KeepsToItsStates
      ∧ nfa.Renumbered other (2 - ·)
      ∧ ∃ dfa, ofNfa? nfa "WORD" = some dfa ∧ ofNfa? other "WORD" = some dfa := by
  intro nfa other
  have kept : nfa.KeepsToItsStates := ⟨by decide, by decide, by decide⟩
  have bijective : Set.BijOn (2 - ·) (Set.Iio 3) (Set.Iio 3) := by
    refine ⟨fun q lt => ?_, fun p lt q lt' same => ?_, fun q lt => ⟨2 - q, ?_, ?_⟩⟩ <;>
      simp only [Set.mem_Iio] at * <;> omega
  have renumbered : nfa.Renumbered other (2 - ·) := by
    have kept : ∀ t ∈ other.transitions.toList, t ∈ (nfa.transitions.remap (2 - ·)).toList := by
      decide
    have complete : ∀ t ∈ (nfa.transitions.remap (2 - ·)).toList, t ∈ other.transitions.toList := by
      decide
    exact ⟨bijective, by decide, rfl, rfl, rfl, fun t => ⟨kept t, complete t⟩⟩
  exact ⟨kept, renumbered, ofNfa?_renumbered kept renumbered _⟩

end Dfa

end Munch
