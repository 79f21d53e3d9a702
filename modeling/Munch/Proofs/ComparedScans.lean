import Mathlib.Data.Option.Defs
import Munch.Proofs.ScanRounds

/-! Scans of one text with different automata. Where two lists of automata accept the same
beginnings of every text, their rounds cut off the same lexemes. They may differ in how long an
automaton stays alive after nothing can be accepted any more; the list that lives no longer fails no
later.
-/

namespace Munch

-----------------------------------------------------------------------------------------
-- Errors in the order of their places
-----------------------------------------------------------------------------------------

/-- The first error names no later place than the second one, and it is the end of the text only if
both are.
-/
inductive ScanError.NoLater : ScanError → ScanError → Prop
  | places {character line character' line' : Nat} (characters : character ≤ character')
    (lines : line ≤ line')
    : NoLater (.noViableAlternative character line) (.noViableAlternative character' line')
  | beforeEnd {character line line' : Nat} (lines : line ≤ line')
    : NoLater (.noViableAlternative character line) (.unexpectedEnd line')
  | atEnd (line : Nat) : NoLater (.unexpectedEnd line) (.unexpectedEnd line)
  | noRules : NoLater .noRules .noRules

/-- Of two errors neither of which is later than the other both are the same. -/
theorem ScanError.NoLater.antisymm {error other : ScanError} (h : error.NoLater other)
    (h' : other.NoLater error)
    : error = other := by
  cases h with
  | places characters lines =>
      cases h' with
      | places characters' lines' =>
          rw [Nat.le_antisymm characters characters', Nat.le_antisymm lines lines']
  | beforeEnd => cases h'
  | atEnd | noRules => rfl

-----------------------------------------------------------------------------------------
-- The ends of two rounds
-----------------------------------------------------------------------------------------

namespace Round

variable {round other : Round} {automata others : List Dfa} {text : List Char}

/-- Automata that are alive no longer than some others end their round no later. -/
theorem Ended.index_le (h : round.Ended automata text) (h' : other.Ended others text)
    (shorter : ∀ front, (∃ dfa ∈ automata, dfa.Alive front) → ∃ dfa ∈ others, dfa.Alive front)
    : round.index ≤ other.index := by
  by_contra later
  have onward := shorter _ (h.reached.before other.index (Nat.lt_of_not_le later))
  have running : other.isOver = false := by
    rw [Bool.eq_false_iff, ne_eq, h'.reached.isOver_iff]
    push Not
    exact onward
  have within := h.reached.within
  have atEnd := h'.atEnd running
  omega

/-- So without a winner their error names no later place. -/
theorem Ended.failure_noLater (h : round.Ended automata text) (h' : other.Ended others text)
    (shorter : ∀ front, (∃ dfa ∈ automata, dfa.Alive front) → ∃ dfa ∈ others, dfa.Alive front)
    (position : Position)
    : (round.failure position text).NoLater (other.failure position text) := by
  have le := h.index_le h' shorter
  have characters : (text.take round.index).length ≤ (text.take other.index).length :=
    (List.take_prefix_take_left le).length_le
  have lines : (text.take round.index).count '\n' ≤ (text.take other.index).count '\n' :=
    (List.take_prefix_take_left le).sublist.count_le '\n'
  simp only [failure, Position.after]
  cases finished : round.isOver with
  | true =>
      cases finished' : other.isOver with
      | true => exact .places (Nat.add_le_add_left characters _) (Nat.add_le_add_left lines _)
      | false => exact .beforeEnd (Nat.add_le_add_left lines _)
  | false =>
      have running : other.isOver = false := by
        rw [Bool.eq_false_iff, ne_eq, h'.isOver_iff, not_not]
        rw [Bool.eq_false_iff, ne_eq, h.isOver_iff, not_not] at finished
        exact shorter text finished
      have same : round.index = other.index :=
        Nat.succ.inj ((h.atEnd finished).trans (h'.atEnd running).symm)
      rw [running, same]
      exact .atEnd _

end Round

-----------------------------------------------------------------------------------------
-- Two scans in step
-----------------------------------------------------------------------------------------

section

variable {automata others : List Dfa}
  (same : ∀ text, lexemeLengths automata text = lexemeLengths others text)

include same

/-- Where the one list finds a token, the other one finds a token with the same lexeme. -/
theorem FirstToken.exists_of_lexemeLengths_eq {lexeme rest : List Char} {dfa : Dfa}
    (h : FirstToken automata lexeme rest dfa)
    : ∃ other, FirstToken others lexeme rest other := by
  have longest := h.longest
  rw [same] at longest
  obtain ⟨_, _, dfa', mem, accepted⟩ := longest.1
  rw [List.take_left] at accepted
  have found : (others.find? (·.accepts lexeme)).isSome :=
    List.find?_isSome.mpr ⟨dfa', mem, accepted⟩
  obtain ⟨other, first⟩ := Option.isSome_iff_exists.mp found
  exact ⟨other, longest, first⟩

/-- Automata that accept the same and live no longer fail where the others fail, and no later, by
induction on the rounds.
-/
theorem failure_scanFrom_noLater
    (shorter : ∀ front, (∃ dfa ∈ automata, dfa.Alive front) → ∃ dfa ∈ others, dfa.Alive front)
    (position : Position) (text : List Char)
    : Option.Rel ScanError.NoLater (scanFrom automata position text).failure
        (scanFrom others position text).failure := by
  induction text using munch_induction automata generalizing position with
  | done =>
      simp only [scanFrom]
      exact .none
  | stuck c rest none =>
      obtain ⟨round, ended, failed⟩ := scanFrom_of_empty none
      rw [same] at none
      obtain ⟨other, ended', failed'⟩ := scanFrom_of_empty none
      rw [failed, failed']
      exact .some (ended.failure_noLater ended' shorter position)
  | token lexeme rest dfa ahead ih =>
      obtain ⟨other, ahead'⟩ := ahead.exists_of_lexemeLengths_eq same
      rw [ahead.scanFrom_eq, ahead'.scanFrom_eq]
      exact ih _

end

end Munch
