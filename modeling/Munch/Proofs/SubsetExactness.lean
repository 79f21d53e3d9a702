import Mathlib.Algebra.Group.Nat.Defs
import Mathlib.Data.List.Perm.Subperm
import Mathlib.Data.Set.Basic
import Munch.Proofs.SubsetRuns

/-! The subset construction is exact, whatever the nondeterministic automaton looks like. The sets
that it finds are the non-empty sets of states that words lead to; it fails exactly if one of them,
or the start, leads to a state that the automaton does not own; and otherwise words are told apart
as the sets that they lead to.
-/

namespace Munch

/-- A list of `n` elements has `2 ^ n` sublists, by induction on the list. -/
theorem length_sublistsOf {α : Type} (items : List α)
    : (sublistsOf items).length = 2 ^ items.length := by
  induction items with
  | nil => rfl
  | cons a rest ih =>
      simp only [sublistsOf, List.length_append, List.length_map, ih, List.length_cons]
      omega

/-- A set with `n` members has `2 ^ n` subsets. -/
theorem SortedSet.length_subsets {α : Type} [Ranked α] (s : SortedSet α)
    : s.subsets.length = 2 ^ s.toList.length := by
  rw [subsets, List.length_map, length_sublistsOf]

namespace Nfa

/-- All characters of the word belong to the alphabet. -/
def IsWord (nfa : Nfa) (word : List Char) : Prop :=
  ∀ c ∈ word, c ∈ nfa.alphabet

/-- The states that paths from the start come to while they spell the word, with silent transitions
anywhere.
-/
def statesAfter (nfa : Nfa) (word : List Char) : Set State :=
  {q | Path nfa.transitions nfa.start word q}

variable {nfa : Nfa} {word other : List Char}

/-- The states that paths come to with a word are those in the set that the word reaches. -/
theorem mem_statesAfter {q : State} : q ∈ nfa.statesAfter word ↔ q ∈ nfa.reached word :=
  mem_reached.symm

/-- No path spells a word exactly if the word reaches the empty set. -/
theorem statesAfter_eq_empty_iff : nfa.statesAfter word = ∅ ↔ nfa.reached word = ∅ := by
  rw [Set.eq_empty_iff_forall_notMem, SortedSet.ext_iff]
  simp [mem_statesAfter]

/-- Two words lead paths to the same states exactly if they reach the same set. -/
theorem statesAfter_eq_iff
    : nfa.statesAfter word = nfa.statesAfter other ↔ nfa.reached word = nfa.reached other := by
  rw [Set.ext_iff, SortedSet.ext_iff]
  simp [mem_statesAfter]

-----------------------------------------------------------------------------------------
-- The sets found are the sets that words lead to
-----------------------------------------------------------------------------------------

/-- What is found from a set is what a word over the alphabet leads to, by induction on the way. -/
theorem exists_reach_of_reaches {table : nfa.ClosureTable} {first last : StateSet}
    (way : Reaches (nfa.nextSets table) first last)
    : ∃ word, nfa.IsWord word ∧ nfa.reach first word = last := by
  induction way with
  | refl set => exact ⟨[], fun _ mem => absurd mem List.not_mem_nil, rfl⟩
  | step next _ ih =>
      obtain ⟨_, c, letter, rfl⟩ := mem_nextSets.mp next
      obtain ⟨word, letters, rfl⟩ := ih
      exact ⟨c :: word, List.forall_mem_cons.mpr ⟨letter, letters⟩, rfl⟩

/-- The sets that are found are those with members that words over the alphabet reach. -/
theorem mem_subsets_iff_reached {table : nfa.ClosureTable} {set : StateSet}
    : set ∈ nfa.subsets table ↔ set ≠ ∅ ∧ ∃ word, nfa.IsWord word ∧ nfa.reached word = set := by
  constructor
  · intro found
    refine ⟨?_, exists_reach_of_reaches (mem_subsets.mp found)⟩
    intro empty
    exact nfa.empty_not_mem_subsets table (empty ▸ found)
  · intro h
    obtain ⟨some, word, letters, rfl⟩ := h
    exact (tracked_reached letters).resolve_right some

/-- A path ends where it begins or at the end of some transition, by induction on it. -/
theorem mem_states_of_path {ts : Transitions Symbol} {p q : State} {word : List Char}
    (path : Path ts p word q)
    : q = p ∨ q ∈ ts.states := by
  induction path with
  | nil => exact Or.inl rfl
  | silent first _ ih | char first _ ih =>
      refine Or.inr (ih.elim ?_ id)
      rintro rfl
      exact Transitions.mem_states.mpr ⟨_, first, Or.inr rfl⟩

/-- The sets hold nothing but the start state and the states that transitions mention. -/
theorem mem_states_of_mem_subsets {table : nfa.ClosureTable} {set : StateSet} {q : State}
    (found : set ∈ nfa.subsets table) (mem : q ∈ set)
    : q ∈ nfa.transitions.states.insert nfa.start := by
  obtain ⟨_, word, _, rfl⟩ := mem_subsets_iff_reached.mp found
  exact SortedSet.mem_insert.mpr (mem_states_of_path (mem_reached.mp mem))

/-- There are fewer sets than sets of the start state and the states that transitions mention, as
the empty one is not found.
-/
theorem length_subsets_lt (nfa : Nfa) (table : nfa.ClosureTable)
    : (nfa.subsets table).length < 2 ^ (nfa.transitions.states.insert nfa.start).toList.length := by
  rw [← SortedSet.length_subsets]
  have distinct : (∅ :: nfa.subsets table).Nodup :=
    List.nodup_cons.mpr ⟨nfa.empty_not_mem_subsets table, nfa.nodup_subsets table⟩
  refine (distinct.subperm fun set known => ?_).length_le
  refine SortedSet.mem_subsets fun q mem => ?_
  obtain rfl | found := List.mem_cons.mp known
  · exact absurd mem (SortedSet.not_mem_empty q)
  · exact mem_states_of_mem_subsets found mem

/-- A set strays on a character if one of its states leads to a state outside. -/
theorem strays_eq_true_iff {set : StateSet} {c : Char}
    : nfa.strays set c = true
      ↔ ∃ p ∈ set, ∃ q, ⟨p, .char c, q⟩ ∈ nfa.transitions ∧ nfa.stateCount ≤ q := by
  simp [strays, mem_targets, SortedSet.mem_toList]

/-- The start or a state that some word leads to has a way out of the states that the automaton
owns.
-/
def GoesAstray (nfa : Nfa) : Prop :=
  nfa.stateCount ≤ nfa.start
    ∨ ∃ word, nfa.IsWord word ∧ ∃ p ∈ nfa.statesAfter word, ∃ c ∈ nfa.alphabet, ∃ q,
        ⟨p, .char c, q⟩ ∈ nfa.transitions ∧ nfa.stateCount ≤ q

/-- The sets that are found show every way out of the states that the automaton owns. -/
theorem not_ownsAll_iff (table : nfa.ClosureTable)
    : ¬nfa.OwnsAll (nfa.subsets table) ↔ nfa.GoesAstray := by
  rw [OwnsAll, not_and_or, Nat.not_lt]
  refine or_congr_right ⟨?_, ?_⟩
  · intro h
    push Not at h
    obtain ⟨set, found, c, letter, stray⟩ := h
    obtain ⟨_, word, letters, rfl⟩ := mem_subsets_iff_reached.mp found
    obtain ⟨p, mem, out⟩ := strays_eq_true_iff.mp (Bool.ne_false_iff.mp stray)
    exact ⟨word, letters, p, mem_statesAfter.mpr mem, c, letter, out⟩
  · intro h owned
    obtain ⟨word, letters, p, mem, c, letter, out⟩ := h
    rw [mem_statesAfter] at mem
    have found : nfa.reached word ∈ nfa.subsets table := by
      refine mem_subsets_iff_reached.mpr ⟨?_, word, letters, rfl⟩
      intro empty
      simp [empty] at mem
    have kept := owned _ found c letter
    rw [strays_eq_true_iff.mpr ⟨p, mem, out⟩] at kept
    cases kept

end Nfa

namespace Dfa

variable {nfa : Nfa} {label : String}

/-- The subset construction fails exactly on the automata that go astray. -/
theorem ofNfa?_eq_none_iff : ofNfa? nfa label = none ↔ nfa.GoesAstray := by
  rw [← Nfa.not_ownsAll_iff nfa.closureTable, ofNfa?]
  simp

/-- Where the subset construction succeeds, it gives the automaton that it gives without the test.
-/
theorem eq_ofNfa_of_ofNfa? {dfa : Dfa} (h : ofNfa? nfa label = some dfa)
    : dfa = ofNfa nfa label := by
  rw [ofNfa?] at h
  split at h
  · exact (Option.some.inj h).symm
  · cases h

/-- Different sets that were found have different numbers. -/
theorem numberOf_inj {set other : StateSet} (found : set ∈ nfa.subsets nfa.closureTable)
    (found' : other ∈ nfa.subsets nfa.closureTable)
    : numberOf nfa set = numberOf nfa other ↔ set = other := by
  constructor
  · intro same
    have here := getElem?_numberOf found
    rw [same, getElem?_numberOf found'] at here
    exact (Option.some.inj here).symm
  · exact congrArg _

/-- The runs of a deterministic automaton stand for the sets of states that words lead to in a
nondeterministic one.
-/
structure Tracks (dfa : Dfa) (nfa : Nfa) : Prop where
  /-- A run over the alphabet comes to an end, and it ends in the only sink if its word leads to no
  state. -/
  sink : ∃ sink,
    dfa.sinks = {sink}
    ∧ ∀ word, nfa.IsWord word → (dfa.run word = some sink ↔ nfa.statesAfter word = ∅)
  total : ∀ word, nfa.IsWord word → ∃ q ∈ dfa.states, dfa.run word = some q
  same_iff : ∀ word other,
    nfa.IsWord word
    → nfa.IsWord other
    → (nfa.statesAfter word).Nonempty
    → (nfa.statesAfter other).Nonempty
    → (dfa.run word = dfa.run other ↔ nfa.statesAfter word = nfa.statesAfter other)
  final_iff : ∀ word,
    nfa.IsWord word
    → ((∃ q ∈ dfa.finals, dfa.run word = some q) ↔ nfa.accept ∈ nfa.statesAfter word)
  foreign : ∀ word, ¬nfa.IsWord word → dfa.run word = none

/-- The states are the numbers up to that of the sink. -/
theorem mem_states_ofNfa {q : State} : q ∈ (ofNfa nfa label).states ↔ q ≤ sinkNumber nfa := by
  apply SortedSet.mem_ofList.trans
  rw [List.mem_range, Nat.lt_succ_iff]
  rfl

/-- The number of any set is a state, the one of the sink for sets that are not found. -/
theorem numberOf_mem_states {set : StateSet} : numberOf nfa set ∈ (ofNfa nfa label).states :=
  mem_states_ofNfa.mpr List.idxOf_le_length

/-- Every transition leads from a state to a state and reads a character of the alphabet. -/
theorem of_mem_transitions_ofNfa {t : Transition Char}
    (stored : t ∈ (ofNfa nfa label).transitions)
    : t.source ∈ (ofNfa nfa label).states
      ∧ t.symbol ∈ nfa.alphabet
      ∧ t.target ∈ (ofNfa nfa label).states := by
  obtain ⟨letter, ⟨set, found, target⟩ | ⟨source, target⟩⟩ := mem_rows.mp stored
  · obtain ⟨bound, _⟩ := List.getElem?_eq_some_iff.mp found
    refine ⟨mem_states_ofNfa.mpr (Nat.le_of_lt bound), letter, ?_⟩
    rw [target]
    exact numberOf_mem_states
  · refine ⟨mem_states_ofNfa.mpr (Nat.le_of_eq source), letter, ?_⟩
    exact mem_states_ofNfa.mpr (Nat.le_of_eq target)

/-- Every state has a transition for every character of the alphabet. -/
theorem exists_transition_ofNfa {q : State} {c : Char} (state : q ∈ (ofNfa nfa label).states)
    (letter : c ∈ nfa.alphabet)
    : ∃ r, ⟨q, c, r⟩ ∈ (ofNfa nfa label).transitions := by
  rcases Nat.eq_or_lt_of_le (mem_states_ofNfa.mp state) with rfl | below
  · exact ⟨_, mem_rows.mpr ⟨letter, Or.inr ⟨rfl, rfl⟩⟩⟩
  · exact ⟨_, mem_rows.mpr ⟨letter, Or.inl ⟨_, List.getElem?_eq_getElem below, rfl⟩⟩⟩

/-- The runs of the determinized automaton stand for the sets of states that words lead to, whatever
automaton it was made of.
-/
theorem tracks_ofNfa (nfa : Nfa) (label : String) : (ofNfa nfa label).Tracks nfa where
  sink := by
    refine ⟨sinkNumber nfa, rfl, fun word letters => ?_⟩
    rw [run_ofNfa letters, Option.some_inj, numberOf_eq_sink (Nfa.tracked_reached letters),
      Nfa.statesAfter_eq_empty_iff]
  total := fun word letters => ⟨_, numberOf_mem_states, run_ofNfa letters⟩
  same_iff := by
    intro word other letters letters' some some'
    have found {word : List Char} (letters : nfa.IsWord word)
        (some : (nfa.statesAfter word).Nonempty)
        : nfa.reached word ∈ nfa.subsets nfa.closureTable := by
      rw [Set.nonempty_iff_ne_empty, ne_eq, Nfa.statesAfter_eq_empty_iff] at some
      exact (Nfa.tracked_reached letters).resolve_right some
    rw [run_ofNfa letters, run_ofNfa letters', Option.some_inj,
      numberOf_inj (found letters some) (found letters' some'), Nfa.statesAfter_eq_iff]
  final_iff := by
    intro word letters
    have tracked : Nfa.Tracked nfa nfa.closureTable (nfa.reached word) :=
      Nfa.tracked_reached letters
    have final : (ofNfa nfa label).isFinal _ = true ↔ _ := isFinal_numberOf tracked
    rw [isFinal_iff] at final
    rw [run_ofNfa letters, Nfa.mem_statesAfter, ← final]
    simp
  foreign := by
    intro word foreign
    rw [Nfa.IsWord] at foreign
    push Not at foreign
    exact run_ofNfa_eq_none foreign

/-- The subset construction fails exactly if the start or a state that some word over the alphabet
leads to has a way out of the states that the automaton owns. Otherwise its runs tell words apart as
the sets of states that the words lead to.
-/
theorem ofNfa?_exact (nfa : Nfa) (label : String)
    : (ofNfa? nfa label = none ↔ nfa.GoesAstray)
      ∧ ∀ dfa, ofNfa? nfa label = some dfa → dfa.Tracks nfa := by
  refine ⟨ofNfa?_eq_none_iff, fun dfa built => ?_⟩
  rw [eq_ofNfa_of_ofNfa? built]
  exact tracks_ofNfa nfa label

/-- A doubled transition, a silent cycle, a silent way out and a foreign character do no harm: the
empty word and `a` lead to the same states.
-/
theorem run_silent_cycle
    : let nfa : Nfa := {
        alphabet := .ofList ['a'], stateCount := 2, start := 0, accept := 1,
        transitions := ⟨[⟨0, .epsilon, 1⟩, ⟨1, .epsilon, 0⟩, ⟨1, .epsilon, 7⟩, ⟨0, .char 'a', 1⟩,
          ⟨0, .char 'a', 1⟩, ⟨0, .char 'b', 9⟩]⟩
      }
      ∃ dfa,
        ofNfa? nfa "A" = some dfa
        ∧ dfa.run [] = dfa.run ['a']
        ∧ (∃ q ∈ dfa.finals, dfa.run ['a'] = some q)
        ∧ dfa.run ['b'] = none := by
  intro nfa
  have letter (c : Char) : c ∈ nfa.alphabet ↔ c = 'a' := by simp [nfa]
  have reading {p q : State} : ⟨p, .char 'a', q⟩ ∈ nfa.transitions ↔ p = 0 ∧ q = 1 := by
    simp [nfa, ← Transitions.mem_toList]
  have onward : ⟨0, .epsilon, 1⟩ ∈ nfa.transitions := .head _
  have back : ⟨1, .epsilon, 0⟩ ∈ nfa.transitions := .tail _ (.head _)
  obtain ⟨fails, tracks⟩ := ofNfa?_exact nfa "A"
  have kept : ¬nfa.GoesAstray := by
    rintro (start | ⟨_, _, p, _, c, inside, q, stored, out⟩)
    · exact absurd start (by decide)
    · obtain rfl := (letter c).mp inside
      obtain ⟨_, rfl⟩ := reading.mp stored
      exact absurd out (by decide)
  obtain ⟨dfa, built⟩ := Option.ne_none_iff_exists'.mp (mt fails.mp kept)
  have dfaTracks := tracks dfa built
  have nothing : nfa.IsWord [] := by simp [Nfa.IsWord]
  have single : nfa.IsWord ['a'] := by simp [Nfa.IsWord, letter]
  have same : nfa.statesAfter [] = nfa.statesAfter ['a'] := by
    ext q
    constructor
    · exact fun path => .char (reading.mpr ⟨rfl, rfl⟩) (.silent back path)
    · intro path
      obtain ⟨p, _, s, stored, rest⟩ := Nfa.exists_of_path_cons path
      obtain ⟨_, rfl⟩ := reading.mp stored
      exact .silent onward rest
  have accepted : nfa.accept ∈ nfa.statesAfter ['a'] :=
    .char (reading.mpr ⟨rfl, rfl⟩) (.nil _)
  refine ⟨dfa, built, ?_, (dfaTracks.final_iff _ single).mpr accepted, dfaTracks.foreign _ ?_⟩
  · exact (dfaTracks.same_iff _ _ nothing single (same ▸ ⟨_, accepted⟩) ⟨_, accepted⟩).mpr same
  · simp [Nfa.IsWord, letter]

end Dfa

end Munch
