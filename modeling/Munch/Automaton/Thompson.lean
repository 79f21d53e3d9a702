import Munch.Automaton.Nfa
import Munch.Regex.Basic

/-! Thompson's construction: every expression becomes a fragment of an automaton, with states of its
own counted from a given number on, and fragments are joined by silent transitions.
-/

namespace Munch

/-- How many states the automaton of an expression has. -/
def Regex.stateCount : Regex → Nat
  | .literal _ => 2
  | .star inner | .plus inner => inner.stateCount + 2
  | .concat left right => left.stateCount + right.stateCount
  | .union left right => left.stateCount + right.stateCount + 2

/-- A part of an automaton that is entered at one state and left at another. -/
structure Fragment where
  entry : State
  exit : State
  transitions : Transitions Symbol
  alphabet : SortedSet Char

namespace Fragment

/-- A silent transition. -/
abbrev silent (source target : State) : Transition Symbol :=
  ⟨source, .epsilon, target⟩

/-- The fragment of an expression, whose states are numbered from `base` on. -/
def ofRegex (base : State) : Regex → Fragment
  | .literal c => ⟨base, base + 1, ⟨[⟨base, .char c, base + 1⟩]⟩, {c}⟩
  | .concat left right =>
      let first := ofRegex base left
      let second := ofRegex (base + left.stateCount) right
      {
        entry := first.entry,
        exit := second.exit,
        transitions :=
          (first.transitions.merge second.transitions).append [silent first.exit second.entry],
        alphabet := first.alphabet ∪ second.alphabet
      }
  | .union left right =>
      let first := ofRegex base left
      let second := ofRegex (base + left.stateCount) right
      let fork := base + left.stateCount + right.stateCount
      let join := fork + 1
      {
        entry := fork,
        exit := join,
        transitions :=
          (first.transitions.merge second.transitions).append
            [
              silent fork first.entry, silent fork second.entry,
              silent second.exit join, silent first.exit join
            ],
        alphabet := first.alphabet ∪ second.alphabet
      }
  | .star inner =>
      let body := ofRegex base inner
      let before := base + inner.stateCount
      let after := before + 1
      {
        entry := before,
        exit := after,
        transitions :=
          body.transitions.append
            [
              silent before body.entry, silent body.exit after, silent before after,
              silent body.exit body.entry
            ],
        alphabet := body.alphabet
      }
  | .plus inner =>
      let body := ofRegex base inner
      let before := base + inner.stateCount
      let after := before + 1
      {
        entry := before,
        exit := after,
        transitions :=
          body.transitions.append
            [silent before body.entry, silent body.exit after, silent body.exit body.entry],
        alphabet := body.alphabet
      }

end Fragment

/-- The automaton of an expression. -/
def Nfa.ofRegex (tree : Regex) : Nfa :=
  let fragment := Fragment.ofRegex 0 tree
  {
    alphabet := fragment.alphabet,
    stateCount := tree.stateCount,
    start := fragment.entry,
    accept := fragment.exit,
    transitions := fragment.transitions
  }

end Munch
