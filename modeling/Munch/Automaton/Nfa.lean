import Munch.Automaton.Transitions
import Munch.Text.Decimal

/-! Nondeterministic automata with silent transitions, one start state and one accepting state.
Besides look-up and the closure under silent transitions there are the paths of an automaton, which
say what it accepts without running it. The main statement is `mem_closure`.
-/

namespace Munch

/-- Characters are hashed in one way, whatever else is imported. -/
instance charHash : Hashable Char := instHashableChar

/-- What a transition of a nondeterministic automaton reads: nothing, or one character. -/
inductive Symbol where
  | epsilon
  | char (c : Char)
  deriving DecidableEq, Hashable

/-- The transition that reads nothing comes first, and then the characters in their order. -/
instance : Ranked Symbol where
  rank
    | .epsilon => 0
    | .char c => c.toNat + 1
  eq_of_rank_eq {a b} h := by
    cases a <;> cases b <;> simp_all [Char.toNat_inj]

/-- The symbol as it is written. -/
def Symbol.name : Symbol → List Char
  | .epsilon => "eps".toList
  | .char c => [c]

/-- A set of states. -/
abbrev StateSet := SortedSet State

/-- The numbers of the members in a row, with nothing between them. -/
def SortedSet.digits (set : StateSet) : List Char :=
  set.toList.flatMap Text.decimal

/-- A nondeterministic automaton. It owns the states below `stateCount`, yet its transitions may
mention others. The index serves look-up and is determined by the transitions.
-/
structure Nfa where
  alphabet : SortedSet Char
  stateCount : Nat
  start : State
  accept : State
  transitions : Transitions Symbol
  index : Std.HashMap (State × Symbol) (List State) := transitions.index
  index_eq : index = transitions.index := by rfl

namespace Nfa

/-- The targets of a state on a symbol, in storage order. -/
def targets (nfa : Nfa) (state : State) (symbol : Symbol) : List State :=
  nfa.index.getD (state, symbol) []

/-- The index of an automaton finds what a search through its transitions finds. -/
theorem targets_eq (nfa : Nfa) : nfa.targets = nfa.transitions.targets := by
  funext q a
  rw [targets, nfa.index_eq, Transitions.getD_index]

/-- Look-up finds the targets of exactly the transitions that the automaton has. -/
theorem mem_targets {nfa : Nfa} {q r : State} {a : Symbol}
    : r ∈ nfa.targets q a ↔ ⟨q, a, r⟩ ∈ nfa.transitions := by
  rw [targets_eq, Transitions.mem_targets]

/-- The targets of a state without reading anything. -/
def silentTargets (nfa : Nfa) (state : State) : List State :=
  nfa.targets state .epsilon

/-- All silent targets are among the ends of the transitions. -/
theorem finitelyBranching_silentTargets (nfa : Nfa) : FinitelyBranching nfa.silentTargets :=
  ⟨nfa.transitions.endpoints, fun _ _ h =>
    List.mem_flatMap.mpr ⟨_, mem_targets.mp h, by simp⟩⟩

/-- The states that can be reached from a state without reading anything, itself included. -/
def closure (nfa : Nfa) (state : State) : StateSet :=
  .ofList (discover nfa.silentTargets nfa.finitelyBranching_silentTargets [state])

/-- The closure is the set of states reached along zero or more silent transitions. -/
theorem mem_closure {nfa : Nfa} {q r : State}
    : r ∈ nfa.closure q ↔ Reaches nfa.silentTargets q r := by
  simp [closure, mem_discover]

/-- A state belongs to its own closure, by the way without a step. -/
theorem self_mem_closure (nfa : Nfa) (q : State) : q ∈ nfa.closure q :=
  mem_closure.mpr (.refl q)

/-- No closure is empty, for it has its state in it. -/
theorem closure_ne_empty (nfa : Nfa) (q : State) : nfa.closure q ≠ ∅ := fun same =>
  SortedSet.not_mem_empty q (same ▸ nfa.self_mem_closure q)

/-- A way through transitions of a relation from one state to another, and the word that its
characters spell.
-/
inductive Path (ts : Transitions Symbol) : State → List Char → State → Prop
  | nil (q : State) : Path ts q [] q
  | silent {p q r : State} {word : List Char} (first : ⟨p, .epsilon, q⟩ ∈ ts)
    (rest : Path ts q word r) : Path ts p word r
  | char {p q r : State} {c : Char} {word : List Char} (first : ⟨p, .char c, q⟩ ∈ ts)
    (rest : Path ts q word r) : Path ts p (c :: word) r

/-- Two paths with a state in common make one, and it spells the two words one behind the other. By
induction on the first path.
-/
theorem Path.append {ts : Transitions Symbol} {p q r : State} {front back : List Char}
    (h : Path ts p front q) (h' : Path ts q back r)
    : Path ts p (front ++ back) r := by
  induction h with
  | nil => exact h'
  | silent first _ ih => exact .silent first (ih h')
  | char first _ ih => exact .char first (ih h')

end Nfa

end Munch
