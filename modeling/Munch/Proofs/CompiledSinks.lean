import Munch.Proofs.CompiledLanguage
import Munch.Proofs.Lockstep
import Munch.Proofs.SubsetExactness

/-! The sink of a compiled expression. Every state of Thompson's construction leads to its accepting
state, so a set of them is hopeless only when it is empty: a run is in the sink exactly if no word
of the language begins with what was read. So the sink is the only dead state, and a compiled
automaton is the one that its parts describe.
-/

namespace Munch

open Regex (Matches)

namespace Regex

/-- Some word of the language begins with the text. -/
def Begins (tree : Regex) (text : List Char) : Prop :=
  ∃ more, Matches tree (text ++ more)

/-- No language is empty, by recursion on the expression. -/
theorem exists_matches (tree : Regex) : ∃ word, Matches tree word := by
  induction tree with
  | literal c => exact ⟨[c], rfl⟩
  | star inner => exact ⟨[], matches_star_nil inner⟩
  | plus inner ih =>
      obtain ⟨word, first⟩ := ih
      exact ⟨word ++ [], matches_plus.mpr ⟨word, [], rfl, first, matches_star_nil inner⟩⟩
  | concat left right ihLeft ihRight =>
      obtain ⟨front, first⟩ := ihLeft
      obtain ⟨back, second⟩ := ihRight
      exact ⟨front ++ back, front, back, rfl, first, second⟩
  | union left right ihLeft _ =>
      obtain ⟨word, first⟩ := ihLeft
      exact ⟨word, Or.inl first⟩

end Regex

-----------------------------------------------------------------------------------------
-- Every state leads to the accepting one
-----------------------------------------------------------------------------------------

namespace Fragment

/-- From every state of a fragment some word leads to the exit, by recursion on the expression. -/
theorem exists_residual {base q : Nat} {tree : Regex} (owned : Owns base tree q)
    : ∃ word, Residual base tree q word := by
  obtain ⟨atLeast, below⟩ := owned
  induction tree generalizing base with
  | literal c =>
      simp only [residual_literal]
      split
      · exact ⟨[c], rfl⟩
      · exact ⟨[], rfl⟩
  | concat left right ihLeft ihRight =>
      simp only [Regex.stateCount] at below
      rcases Nat.lt_or_ge q (base + left.stateCount) with inLeft | inRight
      · obtain ⟨front, first⟩ := ihLeft atLeast inLeft
        obtain ⟨back, second⟩ := right.exists_matches
        exact ⟨front ++ back, (residual_concat_left inLeft).mpr ⟨front, back, rfl, first, second⟩⟩
      · obtain ⟨word, through⟩ := ihRight inRight (by omega)
        exact ⟨word, (residual_concat_right inRight).mpr through⟩
  | union left right ihLeft ihRight =>
      simp only [Regex.stateCount] at below
      rcases Nat.lt_or_ge q (base + left.stateCount) with inLeft | notLeft
      · obtain ⟨word, through⟩ := ihLeft atLeast inLeft
        exact ⟨word, (residual_union_left inLeft).mpr through⟩
      rcases Nat.lt_or_ge q (base + left.stateCount + right.stateCount) with inRight | outside
      · obtain ⟨word, through⟩ := ihRight notLeft (by omega)
        exact ⟨word, (residual_union_right notLeft inRight).mpr through⟩
      rcases Nat.eq_or_lt_of_le outside with rfl | join
      · obtain ⟨word, matched⟩ := (Regex.union left right).exists_matches
        exact ⟨word, residual_fork.mpr matched⟩
      · obtain rfl : q = base + left.stateCount + right.stateCount + 1 := by omega
        exact ⟨[], residual_join.mpr rfl⟩
  | star inner ih | plus inner ih =>
      simp only [Regex.stateCount] at below
      rcases Nat.lt_or_ge q (base + inner.stateCount) with inBody | outside
      · obtain ⟨front, through⟩ := ih atLeast inBody
        exact ⟨front ++ [],
          (repeated_body inBody).mpr ⟨front, [], rfl, through, Regex.matches_star_nil inner⟩⟩
      rcases Nat.eq_or_lt_of_le outside with rfl | after
      · obtain ⟨word, matched⟩ := Regex.exists_matches _
        exact ⟨word, repeated_before.mpr matched⟩
      · obtain rfl : q = base + inner.stateCount + 1 := by omega
        exact ⟨[], repeated_after.mpr rfl⟩

/-- Some character stands in every expression, by recursion on it. -/
theorem exists_mem_alphabet (base : State) (tree : Regex)
    : ∃ c, c ∈ (ofRegex base tree).alphabet := by
  induction tree generalizing base with
  | literal c => exact ⟨c, SortedSet.mem_singleton.mpr rfl⟩
  | star inner ih | plus inner ih => exact ih base
  | concat left right ihLeft _ | union left right ihLeft _ =>
      obtain ⟨c, mem⟩ := ihLeft base
      exact ⟨c, SortedSet.mem_union.mpr (Or.inl mem)⟩

end Fragment

namespace Nfa

/-- A path that starts among the states that the automaton owns stays there. -/
theorem lt_stateCount_of_path {tree : Regex} {p q : State} {word : List Char}
    (path : Path (ofRegex tree).transitions p word q) (owned : p < (ofRegex tree).stateCount)
    : q < (ofRegex tree).stateCount := by
  induction path with
  | nil => exact owned
  | silent first _ ih | char first _ ih => exact ih (lt_stateCount_of_mem first).2

/-- From every state of a compiled automaton some path leads to the accepting one, as every state
has a word that is left to read.
-/
theorem exists_path_accept {tree : Regex} {q : State} (owned : q < (ofRegex tree).stateCount)
    : ∃ word, Path (ofRegex tree).transitions q word (ofRegex tree).accept := by
  have inside : Fragment.Owns 0 tree q := ⟨Nat.zero_le q, by rwa [Nat.zero_add]⟩
  obtain ⟨word, through⟩ := Fragment.exists_residual inside
  exact ⟨word, (Fragment.path_exit_iff inside).mpr through⟩

/-- From no states no states are reached, by induction on the word. -/
theorem reach_empty (nfa : Nfa) (word : List Char) : nfa.reach ∅ word = ∅ := by
  induction word with
  | nil => rfl
  | cons c word ih =>
      rw [reach, List.foldl_cons, nfa.advance_empty]
      exact ih

/-- After two words there are the states that the second one reaches from those after the first. -/
theorem reached_append (nfa : Nfa) (front back : List Char)
    : nfa.reached (front ++ back) = nfa.reach (nfa.reached front) back :=
  List.foldl_append

/-- A text leads to some state exactly if a word of the language begins with it. -/
theorem reached_ne_empty_iff {tree : Regex} {text : List Char}
    : (ofRegex tree).reached text ≠ ∅ ↔ tree.Begins text := by
  constructor
  · intro some
    obtain ⟨q, mem⟩ := SortedSet.exists_mem_of_ne_empty some
    have path := mem_reached.mp mem
    have start : (ofRegex tree).start < (ofRegex tree).stateCount :=
      (ownsAll_ofRegex tree []).1
    obtain ⟨more, onward⟩ := exists_path_accept (lt_stateCount_of_path path start)
    exact ⟨more, path_accept_iff.mp (path.append onward)⟩
  · intro h none
    obtain ⟨more, matched⟩ := h
    have final := mem_reached.mpr (path_accept_iff.mpr matched)
    rw [reached_append, none, reach_empty] at final
    exact SortedSet.not_mem_empty _ final

/-- Whatever a word of the language begins with has characters of the alphabet only. -/
theorem isWord_of_begins {tree : Regex} {text : List Char} (h : tree.Begins text)
    : (ofRegex tree).IsWord text := by
  obtain ⟨more, matched⟩ := h
  intro c mem
  exact mem_alphabet_of_path (path_accept_iff.mpr matched) c (List.mem_append_left more mem)

end Nfa

-----------------------------------------------------------------------------------------
-- The sink
-----------------------------------------------------------------------------------------

namespace Dfa

/-- The start is never the sink, as the closure of a state is not empty. -/
theorem isSink_start_ofNfa (nfa : Nfa) (label : String)
    : (ofNfa nfa label).isSink (ofNfa nfa label).start = false := by
  have tracked : nfa.Tracked nfa.closureTable (nfa.closure nfa.start) :=
    Or.inl (Nfa.mem_subsets.mpr (.refl _))
  have start : (ofNfa nfa label).start = numberOf nfa (nfa.closure nfa.start) :=
    numberOf_start.symm
  rw [Bool.eq_false_iff, start, ne_eq, isSink_numberOf tracked]
  exact nfa.closure_ne_empty nfa.start

/-- An automaton of the subset construction is alive as long as the text leads to some state. -/
theorem alive_ofNfa {nfa : Nfa} {label : String} {text : List Char}
    : (ofNfa nfa label).Alive text ↔ nfa.IsWord text ∧ nfa.reached text ≠ ∅ := by
  by_cases letters : nfa.IsWord text
  · have tracked : Nfa.Tracked nfa nfa.closureTable (nfa.reached text) :=
      Nfa.tracked_reached letters
    have sink : (ofNfa nfa label).isSink _ = true ↔ _ := isSink_numberOf tracked
    simp [Alive, isSink_start_ofNfa, run_ofNfa letters, letters, ← sink]
  · have foreign := (tracks_ofNfa nfa label).foreign text letters
    simp [Alive, foreign, letters]

/-- A compiled automaton is alive as long as some word of its language begins with the text. -/
theorem alive_ofTree {tree : Regex} {label : String} {text : List Char}
    : (ofTree tree label).Alive text ↔ tree.Begins text := by
  rw [ofTree, alive_ofNfa, Nfa.reached_ne_empty_iff]
  exact ⟨And.right, fun h => ⟨Nfa.isWord_of_begins h, h⟩⟩

/-- A run goes along stored transitions, by induction on its word. -/
theorem reaches_of_runFrom {dfa : Dfa} {q r : State} {word : List Char}
    (h : dfa.runFrom q word = some r)
    : Reaches dfa.transitions.successors q r := by
  induction word generalizing q with
  | nil =>
      obtain rfl := Option.some.inj h
      exact .refl q
  | cons c word ih =>
      rw [runFrom] at h
      obtain ⟨next, step, rest⟩ := Option.bind_eq_some_iff.mp h
      rw [step_eq_head?] at step
      have stored := Transitions.mem_targets.mp (List.mem_of_mem_head? step)
      exact .step (Transitions.mem_successors.mpr ⟨_, stored, rfl, rfl⟩) (ih rest)

/-- No way leads out of the sinks. -/
theorem mem_sinks_of_reaches {dfa : Dfa} {q r : State}
    (way : Reaches dfa.transitions.successors q r) (sink : q ∈ dfa.sinks)
    : r ∈ dfa.sinks := by
  refine way.keeps (fun p p' step sink => ?_) sink
  obtain ⟨t, stored, rfl, rfl⟩ := Transitions.mem_successors.mp step
  exact dfa.target_mem_sinks t stored sink

/-- From the number of a set that was found, a way leads to a final state. -/
theorem exists_final_of_found {tree : Regex} {label : String} {set : StateSet}
    (found : set ∈ (Nfa.ofRegex tree).subsets (Nfa.ofRegex tree).closureTable)
    : ∃ f ∈ (ofTree tree label).finals,
        Reaches (ofTree tree label).transitions.successors (numberOf (.ofRegex tree) set) f := by
  obtain ⟨some, text, letters, rfl⟩ := Nfa.mem_subsets_iff_reached.mp found
  obtain ⟨more, matched⟩ := Nfa.reached_ne_empty_iff.mp some
  have word : (Nfa.ofRegex tree).IsWord (text ++ more) :=
    Nfa.mem_alphabet_of_path (Nfa.path_accept_iff.mpr matched)
  have run : (ofTree tree label).runFrom _ more = _ :=
    runFrom_ofNfa (Or.inl found) fun c mem => word c (List.mem_append_right text mem)
  rw [← Nfa.reached_append] at run
  refine ⟨_, isFinal_iff.mp ((isFinal_numberOf (Nfa.tracked_reached word)).mpr ?_),
    reaches_of_runFrom run⟩
  exact Nfa.mem_reached.mpr (Nfa.path_accept_iff.mpr matched)

/-- The sink is the only dead state of a compiled automaton. -/
theorem deadStates_ofTree (tree : Regex) (label : String)
    : (ofTree tree label).deadStates = (ofTree tree label).sinks := by
  ext q
  constructor
  · intro dead
    obtain ⟨state, hopeless⟩ := mem_deadStates.mp dead
    have atMost : q ≤ sinkNumber (.ofRegex tree) := mem_states_ofNfa.mp state
    rcases Nat.eq_or_lt_of_le atMost with rfl | below
    · exact SortedSet.mem_singleton.mpr rfl
    · have found := List.getElem_mem below
      have number : numberOf (.ofRegex tree) _ = q :=
        (Nfa.nodup_subsets _ _).idxOf_getElem q below
      have hopeful : ∃ f ∈ (ofTree tree label).finals, Reaches _ _ f :=
        exists_final_of_found found
      rw [number] at hopeful
      exact absurd hopeful hopeless
  · intro sink
    refine mem_deadStates.mpr ⟨?_, ?_⟩
    · obtain rfl := SortedSet.mem_singleton.mp sink
      exact mem_states_ofNfa.mpr (Nat.le_refl _)
    · intro hopeful
      obtain ⟨f, final, way⟩ := hopeful
      exact (ofTree tree label).not_mem_sinks_of_mem_finals f final (mem_sinks_of_reaches way sink)

/-- The last state of an automaton is its only sink and its only dead state, and from every other
state a final one can be reached.
-/
structure DeadOnlyAtLast (dfa : Dfa) (last : State) : Prop where
  greatest : IsGreatest {q | q ∈ dfa.states} last
  sinks : dfa.sinks = {last}
  deadStates : dfa.deadStates = {last}
  hopeful
    : ∀ q ∈ dfa.states, q ≠ last → ∃ f ∈ dfa.finals, Reaches dfa.transitions.successors q f
  hopeless : ¬∃ f ∈ dfa.finals, Reaches dfa.transitions.successors last f

/-- A compiled automaton has no dead state but its sink, because every set that is found can be
continued to an accepted word.
-/
theorem deadOnlyAtLast_ofTree (tree : Regex) (label : String)
    : (ofTree tree label).DeadOnlyAtLast (sinkNumber (.ofRegex tree)) := by
  have dead : (ofTree tree label).deadStates = {sinkNumber (.ofRegex tree)} :=
    deadStates_ofTree tree label
  have sink : sinkNumber (.ofRegex tree) ∈ (ofTree tree label).deadStates :=
    dead ▸ SortedSet.mem_singleton.mpr rfl
  refine {
    greatest := ⟨mem_states_ofNfa.mpr (Nat.le_refl _), fun q state => mem_states_ofNfa.mp state⟩
    sinks := rfl
    deadStates := dead
    hopeful := ?_
    hopeless := (mem_deadStates.mp sink).2
  }
  intro q state other
  by_contra stuck
  have stuckDead := mem_deadStates.mpr ⟨state, stuck⟩
  rw [dead] at stuckDead
  exact other (SortedSet.mem_singleton.mp stuckDead)

/-- A run over the alphabet is in the sink exactly if no word of the language begins so. -/
theorem run_ofTree_eq_sink_iff {tree : Regex} {label : String} {text : List Char}
    (letters : ∀ c ∈ text, c ∈ (ofTree tree label).alphabet)
    : (ofTree tree label).run text = some (sinkNumber (.ofRegex tree)) ↔ ¬tree.Begins text := by
  have word : (Nfa.ofRegex tree).IsWord text := fun c mem =>
    SortedSet.mem_toList.mp (letters c mem)
  rw [ofTree, run_ofNfa word, Option.some_inj, numberOf_eq_sink (Nfa.tracked_reached word),
    ← Nfa.reached_ne_empty_iff, not_not]

/-- The last state of the automaton of an expression is its only sink and its only dead state. So a
run over the alphabet ends there exactly if no word of the language begins with what was read.
-/
theorem ofRegex_deadOnlyAtLast {text label : String} {tree : Regex}
    (parsed : Regex.parse text = .ok tree)
    : ∃ dfa last,
        ofRegex text label = .ok dfa
        ∧ dfa.DeadOnlyAtLast last
        ∧ ∀ word,
            (∀ c ∈ word, c ∈ dfa.alphabet)
            → (dfa.run word = some last ↔ ¬tree.Begins word) := by
  refine ⟨ofTree tree label, _, ?_, deadOnlyAtLast_ofTree tree label, ?_⟩
  · rw [ofRegex, parsed]
    rfl
  · exact fun word letters => run_ofTree_eq_sink_iff letters

/-- Some word of `a(b|a)*b` begins with `aba`, and none with `ba`. -/
theorem run_hopeless_beginning
    : ∃ dfa last,
        ofRegex "a(b|a)*b" "WORD" = .ok dfa
        ∧ dfa.DeadOnlyAtLast last
        ∧ dfa.run ['b', 'a'] = some last
        ∧ dfa.run ['a', 'b', 'a'] ≠ some last := by
  have parsed : Regex.parse "a(b|a)*b"
      = .ok
          (.concat (.concat (.literal 'a') (.star (.union (.literal 'b') (.literal 'a'))))
            (.literal 'b')) := by
    decide +kernel
  obtain ⟨dfa, last, compiled, deadOnly, hopeless⟩ := @ofRegex_deadOnlyAtLast _ "WORD" _ parsed
  have alphabet : dfa.alphabet = ['a', 'b'] := by
    rw [ofRegex, parsed] at compiled
    obtain rfl := Except.ok.inj compiled
    rfl
  refine ⟨dfa, last, compiled, deadOnly, (hopeless _ (by simp [alphabet])).mpr ?_, ?_⟩
  · intro begun
    obtain ⟨more, front, back, parted, ⟨_, _, rfl, rfl, _⟩, _⟩ := begun
    simp at parted
  · intro same
    apply (hopeless _ (by simp [alphabet])).mp same
    refine ⟨['b'], ['a', 'b', 'a'], ['b'], rfl, ⟨['a'], ['b', 'a'], rfl, rfl, ?_⟩, rfl⟩
    exact ⟨[['b'], ['a']], rfl, by simp⟩

-----------------------------------------------------------------------------------------
-- Compiled automata are made of their parts
-----------------------------------------------------------------------------------------

/-- Automata with the same parts are the same. -/
theorem eq_of_parts {d e : Dfa} (alphabet : d.alphabet = e.alphabet) (label : d.label = e.label)
    (start : d.start = e.start) (finals : d.finals = e.finals) (states : d.states = e.states)
    (transitions : d.transitions = e.transitions) (sinks : d.sinks = e.sinks)
    : d = e := by
  have targets : d.firstTargets = e.firstTargets := by
    rw [d.firstTargets_eq, e.firstTargets_eq, transitions]
  cases d
  cases e
  cases alphabet
  cases label
  cases start
  cases finals
  cases states
  cases transitions
  cases sinks
  cases targets
  rfl

/-- The automaton with the same parts, its states and its sinks found anew. -/
def rebuilt (dfa : Dfa) : Dfa :=
  ofParts dfa.alphabet dfa.label dfa.start dfa.finals dfa.transitions

/-- The parts of an automaton of the subset construction mention no other state. -/
theorem mem_states_of_mem_rebuilt {nfa : Nfa} {label : String} {q : State}
    (h : q ∈ (ofNfa nfa label).rebuilt.states)
    : q ∈ (ofNfa nfa label).states := by
  rcases SortedSet.mem_insert.mp h with rfl | mentioned
  · exact mem_states_ofNfa.mpr (Nat.zero_le _)
  rcases SortedSet.mem_union.mp mentioned with inTransition | final
  · obtain ⟨t, stored, ends⟩ := Transitions.mem_states.mp inTransition
    obtain ⟨source, _, target⟩ := of_mem_transitions_ofNfa stored
    rcases ends with rfl | rfl
    · exact source
    · exact target
  · obtain ⟨set, found, _⟩ := mem_finalNumbers.mp final
    obtain ⟨bound, _⟩ := List.getElem?_eq_some_iff.mp found
    exact mem_states_ofNfa.mpr (Nat.le_of_lt bound)

/-- Every state of an automaton with a letter has a transition, so its parts mention it. -/
theorem mem_rebuilt_of_mem_states {nfa : Nfa} {label : String} {q : State} {c : Char}
    (letter : c ∈ nfa.alphabet) (h : q ∈ (ofNfa nfa label).states)
    : q ∈ (ofNfa nfa label).rebuilt.states := by
  obtain ⟨r, stored⟩ := exists_transition_ofNfa h letter
  have source := Transitions.mem_states.mpr ⟨_, stored, Or.inl rfl⟩
  exact SortedSet.mem_insert.mpr (Or.inr (SortedSet.mem_union.mpr (Or.inl source)))

/-- A compiled automaton is the one that its parts describe. -/
theorem rebuilt_ofTree (tree : Regex) (label : String)
    : (ofTree tree label).rebuilt = ofTree tree label := by
  obtain ⟨c, letter⟩ := Fragment.exists_mem_alphabet 0 tree
  have states : (ofTree tree label).rebuilt.states = (ofTree tree label).states := by
    ext q
    exact ⟨mem_states_of_mem_rebuilt, mem_rebuilt_of_mem_states letter⟩
  refine eq_of_parts rfl rfl rfl rfl states rfl ?_
  calc (ofTree tree label).rebuilt.sinks
    _ = unproductive (ofTree tree label).transitions (ofTree tree label).finals
          (ofTree tree label).rebuilt.states := rfl
    _ = (ofTree tree label).deadStates := by rw [states, deadStates]
    _ = (ofTree tree label).sinks := deadStates_ofTree tree label

end Dfa

end Munch
