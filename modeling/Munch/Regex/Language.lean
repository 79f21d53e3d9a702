import Munch.Regex.Basic

/-! The language of a regular expression, by recursion on the tree and without any automaton.
-/

namespace Munch.Regex

/-- The word belongs to the language of the expression. -/
def Matches : Regex → List Char → Prop
  | .literal c, word => word = [c]
  | .star inner, word =>
      ∃ pieces : List (List Char), word = pieces.flatten ∧ ∀ piece ∈ pieces, Matches inner piece
  | .plus inner, word =>
      ∃ pieces : List (List Char),
        pieces ≠ [] ∧ word = pieces.flatten ∧ ∀ piece ∈ pieces, Matches inner piece
  | .concat left right, word =>
      ∃ front back, word = front ++ back ∧ Matches left front ∧ Matches right back
  | .union left right, word => Matches left word ∨ Matches right word

/-- A literal describes the word that consists of its character. -/
@[simp]
theorem matches_literal {c : Char} {word : List Char} : Matches (.literal c) word ↔ word = [c] :=
  Iff.rfl

/-- A union describes the words of both operands. -/
@[simp]
theorem matches_union {left right : Regex} {word : List Char}
    : Matches (.union left right) word ↔ Matches left word ∨ Matches right word :=
  Iff.rfl

/-- A concatenation describes a word of the left operand with one of the right operand behind it. -/
theorem matches_concat {left right : Regex} {word : List Char}
    : Matches (.concat left right) word
      ↔ ∃ front back, word = front ++ back ∧ Matches left front ∧ Matches right back :=
  Iff.rfl

/-- Zero or more repetitions describe the empty word. -/
theorem matches_star_nil (inner : Regex) : Matches (.star inner) [] :=
  ⟨[], rfl, by simp⟩

/-- One more repetition in front. -/
theorem matches_star_append {inner : Regex} {front back : List Char} (first : Matches inner front)
    (more : Matches (.star inner) back)
    : Matches (.star inner) (front ++ back) := by
  obtain ⟨pieces, rfl, each⟩ := more
  refine ⟨front :: pieces, rfl, fun piece mem => ?_⟩
  rcases List.mem_cons.mp mem with rfl | mem
  · exact first
  · exact each piece mem

/-- One or more repetitions are one followed by zero or more. -/
theorem matches_plus {inner : Regex} {word : List Char}
    : Matches (.plus inner) word
      ↔ ∃ front back, word = front ++ back ∧ Matches inner front ∧ Matches (.star inner) back := by
  constructor
  · rintro ⟨pieces, nonempty, rfl, each⟩
    cases pieces with
    | nil => simp at nonempty
    | cons front pieces =>
        exact ⟨front, pieces.flatten, rfl, each front (by simp),
          pieces, rfl, fun piece mem => each piece (by simp [mem])⟩
  · rintro ⟨front, _, rfl, first, pieces, rfl, each⟩
    refine ⟨front :: pieces, by simp, rfl, fun piece mem => ?_⟩
    rcases List.mem_cons.mp mem with rfl | mem
    · exact first
    · exact each piece mem

end Munch.Regex
