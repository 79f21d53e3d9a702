import Mathlib.Logic.Relation
import Munch.Proofs.Lockstep

/-! Sinks. The sinks of an automaton that is made from its parts are the states from which its
transitions lead to no final one, whatever cycles and repetitions there are among these. No
transition leaves the sinks of any automaton, and none of them is final. So a walk for the longest
accepted beginning of a word may stop at the first sink, and a run to the end of a word may not look
at sinks at all.
-/

namespace Munch

-----------------------------------------------------------------------------------------
-- Ways along stored transitions
-----------------------------------------------------------------------------------------

/-- Zero or more successor steps are a chain of them. -/
theorem reaches_iff_reflTransGen {α : Type} {next : α → List α} {a b : α}
    : Reaches next a b ↔ Relation.ReflTransGen (fun p q => q ∈ next p) a b := by
  constructor
  · intro way
    induction way with
    | refl a => exact .refl
    | step first _ ih => exact .head first ih
  · intro chain
    induction chain with
    | refl => exact .refl a
    | tail _ last ih => exact ih.snoc last

namespace Transitions

/-- A stored transition leads from the one state to the other. -/
def Links {σ : Type} (ts : Transitions σ) (p q : State) : Prop :=
  ∃ a, (⟨p, a, q⟩ : Transition σ) ∈ ts

/-- One successor step is one stored transition. -/
theorem mem_successors_iff_links {σ : Type} {ts : Transitions σ} {p q : State}
    : q ∈ ts.successors p ↔ ts.Links p q := by
  rw [mem_successors]
  constructor
  · rintro ⟨⟨_, a, _⟩, stored, rfl, rfl⟩
    exact ⟨a, stored⟩
  · rintro ⟨a, stored⟩
    exact ⟨_, stored, rfl, rfl⟩

/-- A way along successors is a chain of stored transitions. -/
theorem reaches_successors_iff {σ : Type} {ts : Transitions σ} {p q : State}
    : Reaches ts.successors p q ↔ Relation.ReflTransGen ts.Links p q := by
  simp only [reaches_iff_reflTransGen, mem_successors_iff_links]

end Transitions

namespace Dfa

/-- The states of an automaton that is made from its parts are those that the parts mention. -/
theorem mem_states_ofParts {alphabet : List Char} {label : String} {start q : State}
    {finals : StateSet} {transitions : Transitions Char}
    : q ∈ (ofParts alphabet label start finals transitions).states
      ↔ q = start ∨ q ∈ finals ∨ ∃ t ∈ transitions, q = t.source ∨ q = t.target := by
  rw [ofParts, SortedSet.mem_insert, SortedSet.mem_union, Transitions.mem_states,
    or_comm (b := q ∈ finals)]

/-- An automaton with the states that a start state, final states and transitions mention. -/
structure MadeOf (dfa : Dfa) (start : State) (finals : StateSet) (transitions : Transitions Char)
    : Prop where
  start_eq : dfa.start = start
  finals_eq : dfa.finals = finals
  mem_states
    : ∀ q,
        q ∈ dfa.states
          ↔ q = start ∨ q ∈ finals ∨ ∃ t ∈ transitions, q = t.source ∨ q = t.target
  /-- From a sink, no way along zero or more stored transitions leads to a final state. -/
  mem_sinks
    : ∀ q,
        q ∈ dfa.sinks
          ↔ q ∈ dfa.states ∧ ¬∃ f ∈ finals, Relation.ReflTransGen transitions.Links q f
  /-- The transitions are kept as they are, in direction, order and number. -/
  toList_transitions : dfa.transitions.toList = transitions.toList
  step_eq_head? : ∀ q c, dfa.step q c = (transitions.targets q c).head?
  /-- The search for hopeless states finds the same ones in the automaton. -/
  deadStates_eq : dfa.deadStates = dfa.sinks

/-- Whatever parts an automaton is made of, with cycles or without, with repeated transitions, with
final states that are out of reach or mentioned nowhere else, its sinks are exactly the states from
which the transitions lead to no final one.
-/
theorem ofParts_madeOf (alphabet : List Char) (label : String) (start : State)
    (finals : StateSet) (transitions : Transitions Char)
    : (ofParts alphabet label start finals transitions).MadeOf start finals transitions where
  start_eq := rfl
  finals_eq := rfl
  mem_states := fun q => mem_states_ofParts
  mem_sinks := fun q => by
    simp only [← Transitions.reaches_successors_iff]
    exact mem_unproductive
  toList_transitions := rfl
  step_eq_head? := step_eq_head? _
  deadStates_eq := rfl

end Dfa

-----------------------------------------------------------------------------------------
-- Walks that stop at a sink
-----------------------------------------------------------------------------------------

/-- There is no last place exactly if there are no places. -/
theorem Runner.Last.eq_none_iff {places : Set Nat} {found : Option Nat} (h : Last places found)
    : found = none ↔ places = ∅ := by
  cases found with
  | none => exact ⟨fun _ => h, fun _ => rfl⟩
  | some last => simpa using (Set.nonempty_of_mem h.1).ne_empty

/-- A place is the last one exactly if it is the greatest of all. -/
theorem Runner.Last.eq_some_iff {places : Set Nat} {found : Option Nat} {last : Nat}
    (h : Last places found)
    : found = some last ↔ IsGreatest places last := by
  cases found with
  | none =>
      have none_there : places = ∅ := h
      simp [none_there, IsGreatest]
  | some other =>
      constructor
      · rintro ⟨⟩
        exact h
      · intro greatest
        rw [h.unique greatest]

namespace Dfa

/-- A word is accepted if its run ends in a final state, whatever the sinks are. -/
theorem accepts_iff_run {dfa : Dfa} {word : List Char}
    : dfa.accepts word = true ↔ ∃ q ∈ dfa.finals, dfa.run word = some q := by
  simp only [accepts, Option.any_eq_true, Bool.and_eq_true, Bool.not_eq_true']
  constructor
  · intro accepted
    obtain ⟨q, run, _, final⟩ := accepted
    exact ⟨q, isFinal_iff.mp final, run⟩
  · intro ending
    obtain ⟨q, final, run⟩ := ending
    refine ⟨q, run, Bool.eq_false_iff.mpr fun sink => ?_, isFinal_iff.mpr final⟩
    exact dfa.not_mem_sinks_of_mem_finals q final (isSink_iff.mp sink)

/-- The lengths of the beginnings of a word with which a run from the state ends in a final one. -/
def finalLengths (dfa : Dfa) (state : State) (word : List Char) : Set Nat :=
  {n | n ≤ word.length ∧ ∃ f ∈ dfa.finals, dfa.runFrom state (word.take n) = some f}

/-- The empty beginning leads to a final state if the run starts in one. -/
theorem zero_mem_finalLengths {dfa : Dfa} {state : State} {word : List Char}
    : 0 ∈ dfa.finalLengths state word ↔ dfa.isFinal state = true := by
  simp [finalLengths, runFrom, isFinal_iff]

/-- No final state comes behind a sink, so a run to one of them takes no step into a sink. -/
theorem advance_of_step {dfa : Dfa} {state next last : State} {c : Char} {word : List Char}
    (step : dfa.step state c = some next) (run : dfa.runFrom next word = some last)
    (final : last ∈ dfa.finals)
    : dfa.advance state c = some next := by
  have live : dfa.isSink next = false := by
    refine Bool.eq_false_iff.mpr fun sink => ?_
    exact dfa.not_mem_sinks_of_mem_finals last final (isSink_iff.mp (isSink_of_runFrom run sink))
  simp [advance, step, live]

/-- Advancing is a step, to a state that is no sink. -/
theorem step_of_advance {dfa : Dfa} {state next : State} {c : Char}
    (h : dfa.advance state c = some next)
    : dfa.step state c = some next :=
  (Option.filter_eq_some_iff.mp h).1

/-- A longer beginning leads to a final state if the first step does not end the walk and the rest
of the beginning leads there. Final states lie behind no sink, so no such beginning is lost.
-/
theorem succ_mem_finalLengths_cons {dfa : Dfa} {state : State} {c : Char} {word : List Char}
    {n : Nat}
    : n + 1 ∈ dfa.finalLengths state (c :: word)
      ↔ ∃ next, dfa.advance state c = some next ∧ n ∈ dfa.finalLengths next word := by
  constructor
  · rintro ⟨atMost, f, final, run⟩
    rw [List.take_succ_cons, runFrom] at run
    obtain ⟨next, step, rest⟩ := Option.bind_eq_some_iff.mp run
    exact ⟨next, advance_of_step step rest final, Nat.le_of_succ_le_succ atMost, f, final, rest⟩
  · rintro ⟨next, forward, atMost, f, final, rest⟩
    refine ⟨Nat.succ_le_succ atMost, f, final, ?_⟩
    rw [List.take_succ_cons, runFrom]
    exact Option.bind_eq_some_iff.mpr ⟨next, step_of_advance forward, rest⟩

/-- Where no longer beginning leads to a final state, only the empty one may. -/
theorem last_of_no_longer {dfa : Dfa} {state : State} {word : List Char}
    (none_longer : ∀ n, n + 1 ∉ dfa.finalLengths state word)
    : Runner.Last (dfa.finalLengths state word)
        (if dfa.isFinal state then some 0 else none) := by
  have only_zero {n : Nat} (mem : n ∈ dfa.finalLengths state word) : n = 0 := by
    cases n with
    | zero => rfl
    | succ n => exact absurd mem (none_longer n)
  split
  · rename_i final
    exact ⟨zero_mem_finalLengths.mpr final, fun n mem => Nat.le_of_eq (only_zero mem)⟩
  · rename_i rejects
    refine Set.eq_empty_iff_forall_notMem.mpr fun n mem => rejects ?_
    obtain rfl := only_zero mem
    exact zero_mem_finalLengths.mp mem

/-- The walk finds the longest beginning that leads to a final state, by induction on the word. -/
theorem last_longestFrom (dfa : Dfa) (state : State) (word : List Char)
    : Runner.Last (dfa.finalLengths state word) (dfa.longestFrom state word) := by
  induction word generalizing state with
  | nil =>
      refine last_of_no_longer fun n mem => ?_
      exact Nat.not_succ_le_zero n mem.1
  | cons c word ih =>
      rw [longestFrom]
      cases forward : dfa.advance state c with
      | none =>
          refine last_of_no_longer fun n mem => ?_
          obtain ⟨next, step, _⟩ := succ_mem_finalLengths_cons.mp mem
          rw [forward] at step
          cases step
      | some next =>
          have onward {n : Nat}
              : n + 1 ∈ dfa.finalLengths state (c :: word) ↔ n ∈ dfa.finalLengths next word := by
            simp [succ_mem_finalLengths_cons, forward]
          have rest := ih next
          rw [Option.bind_some]
          cases found : dfa.longestFrom next word with
          | none =>
              rw [found] at rest
              refine last_of_no_longer fun n mem => ?_
              rw [onward, rest] at mem
              exact mem
          | some length =>
              rw [found] at rest
              refine ⟨onward.mpr rest.1, fun n mem => ?_⟩
              cases n with
              | zero => exact Nat.zero_le _
              | succ n => exact Nat.succ_le_succ (rest.2 (onward.mp mem))

/-- From the start, the beginnings that lead to a final state are the accepted ones. -/
theorem finalLengths_start (dfa : Dfa) (word : List Char)
    : dfa.finalLengths dfa.start word
      = {n | n ≤ word.length ∧ dfa.accepts (word.take n) = true} := by
  simp only [accepts_iff_run]
  rfl

/-- Of any automaton, the longest accepted beginning of a word is found, the empty one included,
although the walk stops at the first sink; and a word is accepted exactly if its run ends in a final
state. For no final state is a sink, and from a sink every step that there is leads to a sink.
-/
theorem longestPrefix_exact (dfa : Dfa) (word : List Char)
    : (∀ k,
        dfa.longestPrefix word = some k
          ↔ IsGreatest {n | n ≤ word.length ∧ dfa.accepts (word.take n) = true} k)
      ∧ (dfa.longestPrefix word = none
          ↔ ∀ n ≤ word.length, dfa.accepts (word.take n) = false)
      ∧ (dfa.accepts word = true ↔ ∃ f ∈ dfa.finals, dfa.run word = some f)
      ∧ (∀ f ∈ dfa.finals, f ∉ dfa.sinks)
      ∧ ∀ q ∈ dfa.sinks, ∀ c, dfa.step q c = none ∨ ∃ r ∈ dfa.sinks, dfa.step q c = some r := by
  have last := dfa.last_longestFrom dfa.start word
  rw [finalLengths_start] at last
  refine ⟨fun k => last.eq_some_iff, ?_, accepts_iff_run, dfa.not_mem_sinks_of_mem_finals, ?_⟩
  · rw [longestPrefix, last.eq_none_iff]
    simp [Set.eq_empty_iff_forall_notMem]
  · intro q sink c
    cases step : dfa.step q c with
    | none => exact Or.inl rfl
    | some r =>
        exact Or.inr ⟨r, isSink_iff.mp (isSink_of_step step (isSink_iff.mpr sink)), rfl⟩

end Dfa

end Munch
