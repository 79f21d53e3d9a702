import Munch.Automaton.Thompson

/-! Thompson's construction with a counter that hands out the states. An expression takes its states
behind those of its operands, so the numbers that are handed out are those that the sizes of the
operands tell beforehand, and in the end the counter is the number of states.
-/

namespace Munch

/-- Hands out the next state. -/
def freshState : StateM State State :=
  modifyGet fun next => (next, next + 1)

namespace Fragment

/-- Encloses a fragment in two more states. It may be passed any number of times from the one to the
other, or also not at all.
-/
def enclose (skips : Bool) (inner : Fragment) : StateM State Fragment := do
  let before ← freshState
  let after ← freshState
  let around :=
    (inner.transitions.push (silent before inner.entry)).push (silent inner.exit after)
  let skipping := if skips then around.push (silent before after) else around
  return {
    entry := before,
    exit := after,
    transitions := skipping.push (silent inner.exit inner.entry),
    alphabet := inner.alphabet
  }

/-- The fragment of an expression, whose states the counter hands out. -/
def compile : Regex → StateM State Fragment
  | .literal c => do
      let entry ← freshState
      let exit ← freshState
      return ⟨entry, exit, ⟨[⟨entry, .char c, exit⟩]⟩, {c}⟩
  | .concat left right => do
      let first ← compile left
      let second ← compile right
      return {
        entry := first.entry,
        exit := second.exit,
        transitions :=
          (first.transitions.merge second.transitions).push (silent first.exit second.entry),
        alphabet := first.alphabet ∪ second.alphabet
      }
  | .union left right => do
      let first ← compile left
      let second ← compile right
      let fork ← freshState
      let join ← freshState
      let forked :=
        ((first.transitions.merge second.transitions).push (silent fork first.entry)).push
          (silent fork second.entry)
      return {
        entry := fork,
        exit := join,
        transitions :=
          (forked.push (silent second.exit join)).push (silent first.exit join),
        alphabet := first.alphabet ∪ second.alphabet
      }
  | .star inner => do enclose true (← compile inner)
  | .plus inner => do enclose false (← compile inner)

/-- With the counter at some number, the fragment has its states from there on, and the counter
comes to stand behind them. By induction on the expression, operands first.
-/
theorem compile_run (tree : Regex) (base : State)
    : (compile tree).run base = pure (ofRegex base tree, base + tree.stateCount) := by
  induction tree generalizing base with
  | literal c => rfl
  | concat left right ihLeft ihRight =>
      rw [compile, StateT.run_bind, ihLeft, pure_bind, StateT.run_bind, ihRight, pure_bind,
        Regex.stateCount, ← Nat.add_assoc]
      rfl
  | union left right ihLeft ihRight =>
      rw [compile, StateT.run_bind, ihLeft, pure_bind, StateT.run_bind, ihRight, pure_bind,
        Regex.stateCount, ← Nat.add_assoc, ← Nat.add_assoc]
      simp [freshState, ofRegex, Transitions.push, Transitions.append]
  | star inner ih | plus inner ih =>
      rw [compile, StateT.run_bind, ih, pure_bind, Regex.stateCount, ← Nat.add_assoc]
      simp [enclose, freshState, ofRegex, Transitions.push, Transitions.append]

end Fragment

namespace Nfa

/-- The automaton of a fragment and of the counter behind its states. -/
def ofFragment (fragment : Fragment) (next : Nat) : Nfa where
  alphabet := fragment.alphabet
  stateCount := next
  start := fragment.entry
  accept := fragment.exit
  transitions := fragment.transitions

/-- The automaton of an expression is made of what a counter that begins with zero hands out. -/
theorem ofRegex_eq_compiled (tree : Regex)
    : let made := ((Fragment.compile tree).run 0).run
      ofRegex tree = ofFragment made.1 made.2 := by
  rw [Fragment.compile_run, Nat.zero_add]
  rfl

end Nfa

end Munch
