import Munch.Automaton.Nfa

/-! Deterministic automata with a label: their parts, single steps, whole runs, and the longest
accepted beginning of a word. Of several transitions that share a state and a symbol the first one
counts. The main statement is `mem_deadStates`: the dead states are those from which no way leads to
a final state.
-/

namespace Munch

/-- A deterministic automaton for the lexemes of one kind of token. A walk through it may stop
at a sink: no transition leaves the sinks, and no final state is one of them, so nothing can be
accepted from there. The index serves single steps and is determined by the transitions.
-/
structure Dfa where
  alphabet : List Char
  label : String
  start : State
  finals : StateSet
  states : StateSet
  transitions : Transitions Char
  sinks : StateSet
  target_mem_sinks : ∀ t ∈ transitions, t.source ∈ sinks → t.target ∈ sinks
  not_mem_sinks_of_mem_finals : ∀ q ∈ finals, q ∉ sinks
  firstTargets : Std.HashMap (State × Char) State := transitions.firstTargets
  firstTargets_eq : firstTargets = transitions.firstTargets := by rfl

namespace Dfa

/-- The states from which some final state can be reached, in the order of a backward search. -/
def productive (transitions : Transitions Char) (finals : StateSet) : List State :=
  discover transitions.predecessors transitions.finitelyBranching_predecessors finals.toList

/-- Those of some states from which no final state can be reached. -/
def unproductive (transitions : Transitions Char) (finals states : StateSet) : StateSet :=
  let alive := productive transitions finals
  states.filter (· ∉ alive)

/-- The search backwards from the final states finds exactly the states from which one of them can
be reached.
-/
theorem mem_productive {transitions : Transitions Char} {finals : StateSet} {q : State}
    : q ∈ productive transitions finals
      ↔ ∃ f ∈ finals, Reaches transitions.successors q f := by
  simp [productive, mem_discover, Transitions.reaches_predecessors_iff, SortedSet.mem_toList]

/-- A state is left over exactly if no way along transitions leads from it to a final state. -/
theorem mem_unproductive {transitions : Transitions Char} {finals states : StateSet} {q : State}
    : q ∈ unproductive transitions finals states
      ↔ q ∈ states ∧ ¬∃ f ∈ finals, Reaches transitions.successors q f := by
  simp only [unproductive, SortedSet.mem_filter, decide_eq_true_eq, mem_productive]

/-- The automaton with the given parts. Its states are all that the parts mention, and its sinks
those from which no final state can be reached.
-/
def ofParts (alphabet : List Char) (label : String) (start : State) (finals : StateSet)
    (transitions : Transitions Char) : Dfa :=
  let states := (transitions.states ∪ finals).insert start
  {
    alphabet, label, start, finals, states, transitions,
    sinks := unproductive transitions finals states,
    target_mem_sinks := fun t stored hopeless => by
      obtain ⟨_, cut⟩ := mem_unproductive.mp hopeless
      refine mem_unproductive.mpr ⟨?_, fun ⟨f, final, way⟩ => cut ⟨f, final, ?_⟩⟩
      · have := Transitions.mem_states.mpr ⟨t, stored, Or.inr rfl⟩
        simp [states, this]
      · exact .step (Transitions.mem_successors.mpr ⟨t, stored, rfl, rfl⟩) way,
    not_mem_sinks_of_mem_finals := fun q final hopeless =>
      (mem_unproductive.mp hopeless).2 ⟨q, final, .refl q⟩
  }

/-- How many states the automaton has. -/
def stateCount (dfa : Dfa) : Nat := dfa.states.toList.length

/-- The states from which no final state can be reached. -/
def deadStates (dfa : Dfa) : StateSet :=
  unproductive dfa.transitions dfa.finals dfa.states

/-- The state after one more character, if there is a transition for it. -/
def step (dfa : Dfa) (state : State) (c : Char) : Option State :=
  dfa.firstTargets[(state, c)]?

/-- A step goes to the first target that is stored for the state and the character. -/
theorem step_eq_head? (dfa : Dfa) (state : State) (c : Char)
    : dfa.step state c = (dfa.transitions.targets state c).head? := by
  rw [step, dfa.firstTargets_eq, Transitions.getElem?_firstTargets]

/-- The state accepts. -/
def isFinal (dfa : Dfa) (state : State) : Bool := state ∈ dfa.finals

/-- The state is marked as one from which nothing can be accepted. -/
def isSink (dfa : Dfa) (state : State) : Bool := state ∈ dfa.sinks

/-- The state after one more character, unless it is a sink. -/
def advance (dfa : Dfa) (state : State) (c : Char) : Option State :=
  (dfa.step state c).filter (!dfa.isSink ·)

/-- The state after a word that is read from some state on, if no character is without a
transition. A sink does not end the run.
-/
def runFrom (dfa : Dfa) (state : State) : List Char → Option State
  | [] => some state
  | c :: word => (dfa.step state c).bind fun next => runFrom dfa next word

/-- The state after a word. -/
def run (dfa : Dfa) (word : List Char) : Option State :=
  dfa.runFrom dfa.start word

/-- The whole word is a lexeme. -/
def accepts (dfa : Dfa) (word : List Char) : Bool :=
  (dfa.run word).any fun state => !dfa.isSink state && dfa.isFinal state

/-- The length of the longest accepted beginning of a word that is read from some state on. The
walk ends at the first sink or missing transition.
-/
def longestFrom (dfa : Dfa) (state : State) : List Char → Option Nat
  | [] => if dfa.isFinal state then some 0 else none
  | c :: word =>
      match (dfa.advance state c).bind fun next => longestFrom dfa next word with
      | some length => some (length + 1)
      | none => if dfa.isFinal state then some 0 else none

/-- The length of the longest accepted beginning of a word. -/
def longestPrefix (dfa : Dfa) (word : List Char) : Option Nat :=
  dfa.longestFrom dfa.start word

/-- The test for final states says what their set says. -/
theorem isFinal_iff {dfa : Dfa} {state : State}
    : dfa.isFinal state = true ↔ state ∈ dfa.finals := by
  simp [isFinal]

/-- The test for sinks says what their set says. -/
theorem isSink_iff {dfa : Dfa} {state : State}
    : dfa.isSink state = true ↔ state ∈ dfa.sinks := by
  simp [isSink]

/-- A run on two words is the run on the first and, from where it ends, the run on the second. By
induction on the first word.
-/
theorem runFrom_append (dfa : Dfa) (state : State) (front back : List Char)
    : dfa.runFrom state (front ++ back)
      = (dfa.runFrom state front).bind fun next => dfa.runFrom next back := by
  induction front generalizing state with
  | nil => rfl
  | cons c front ih =>
      simp only [List.cons_append, runFrom]
      cases dfa.step state c with
      | none => rfl
      | some next => exact ih next

/-- A run depends on the single steps only. -/
theorem runFrom_eq_of_step_eq {dfa other : Dfa} (steps : other.step = dfa.step)
    : other.runFrom = dfa.runFrom := by
  funext state word
  induction word generalizing state with
  | nil => rfl
  | cons c word ih => simp only [runFrom, steps, ih]

/-- The dead states are those from which no way leads to a final state. -/
theorem mem_deadStates {dfa : Dfa} {q : State}
    : q ∈ dfa.deadStates
      ↔ q ∈ dfa.states ∧ ¬∃ f ∈ dfa.finals, Reaches dfa.transitions.successors q f :=
  mem_unproductive

end Dfa

end Munch
