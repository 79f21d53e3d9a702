import Munch.Proofs.InfixReading

/-! Quoted characters before a text. A quoted character is one token, and what follows falls into
the tokens that it has alone, with its faults as many characters later. Only a quoted backslash is
not safe from what follows: with one more quote behind it the four characters are an escaped quote.
-/

namespace Munch.Regex

-----------------------------------------------------------------------------------------
-- Positions
-----------------------------------------------------------------------------------------

/-- The error in a text with more characters before it. -/
def ParseError.later (distance : Nat) : ParseError → ParseError
  | .unterminatedLiteral position => .unterminatedLiteral (position + distance)
  | cause => cause

/-- Where a text begins shows in its errors only, by induction on the text. -/
theorem spelled_later (distance position : Nat) (text : List Char)
    : spelled (position + distance) text
      = (spelled position text).mapError (.later distance) := by
  have put {put : List Token → List Token} {here there : Except ParseError (List Token)}
      (same : there = here.mapError (.later distance))
      : there.map put = (here.map put).mapError (.later distance) := by
    rw [same]
    cases here <;> rfl
  fun_induction spelled position text with
  | case1 => rfl
  | case2 _ _ ih | case3 _ _ ih | case4 _ _ _ ih | case7 _ _ ih | case8 _ _ ih | case9 _ _ ih
  | case10 _ _ ih | case11 _ _ ih =>
      rw [spelled, Nat.add_right_comm]
      exact put ih
  | case5 position c rest noEscape ih =>
      rw [spelled, Nat.add_right_comm]
      · exact put ih
      · exact noEscape
  | case6 =>
      rw [spelled]
      · rfl
      all_goals assumption
  | case12 _ _ _ _ _ _ _ _ _ _ _ _ _ white ih =>
      rw [spelled, if_pos white, Nat.add_right_comm]
      · exact ih
      all_goals assumption
  | case13 _ _ _ _ _ _ _ _ _ _ _ _ _ dark ih =>
      rw [spelled, if_neg dark, Nat.add_right_comm]
      · exact put ih
      all_goals assumption

-----------------------------------------------------------------------------------------
-- A character and what follows it
-----------------------------------------------------------------------------------------

/-- The tokens of a character and of what follows it. A concatenation is understood between them if
an operand follows, which begins with a literal or with a parenthesis.
-/
def literalBefore (c : Char) : List Token → List Token
  | .openGroup :: tokens => .literal c :: .head .concat :: .openGroup :: tokens
  | .head (.literal d) :: tokens => .literal c :: .head .concat :: .literal d :: tokens
  | tokens => .literal c :: tokens

/-- Putting the concatenations in changes nothing about the first token. -/
theorem head?_concatenated (tokens : List Token) : (concatenated tokens).head? = tokens.head? := by
  cases tokens with
  | nil => rfl
  | cons token tokens => rw [concatenated_cons, List.head?_cons, List.head?_cons]

/-- A character goes before its tokens with the concatenation that is understood between them. -/
theorem literalBefore_eq (c : Char) (tokens : List Token)
    : literalBefore c tokens = .literal c :: (seam [.literal c] tokens ++ tokens) := by
  match tokens with
  | [] | .openGroup :: _ | .closeGroup :: _ => rfl
  | .head symbol :: _ => cases symbol <;> rfl

/-- The concatenations behind a literal are those of the rest, and one before it if that begins an
operand.
-/
theorem concatenated_literal_cons (c : Char) (tokens : List Token)
    : concatenated (.literal c :: tokens) = literalBefore c (concatenated tokens) := by
  rw [concatenated_cons, literalBefore_eq, seam, seam, head?_concatenated]

/-- The characters stand for the one character before the text: the tokens of the text follow it,
and if the text has a fault, that is found as many characters later.
-/
def StandsBefore (front : List Char) (c : Char) (text : List Char) : Prop :=
  (∀ tokens,
      tokenize text = .ok tokens → tokenize (front ++ text) = .ok (literalBefore c tokens))
  ∧ ∀ position,
      tokenize text = .error (.unterminatedLiteral position)
      → tokenize (front ++ text) = .error (.unterminatedLiteral (position + front.length))

/-- Characters that are spelled as one literal stand for it, for what comes behind has its faults as
many places later.
-/
theorem standsBefore_of_spelled {front text : List Char} {c : Char}
    (read : spelled 0 (front ++ text)
      = (spelled (0 + front.length) text).map (.literal c :: ·))
    : StandsBefore front c text := by
  rw [spelled_later] at read
  constructor
  · intro tokens tokenized
    obtain ⟨raw, found, rfl⟩ := map_eq_ok_iff.mp tokenized
    rw [tokenize, read, found, ← concatenated_literal_cons]
    rfl
  · intro position failed
    have found := map_eq_error_iff.mp failed
    rw [tokenize, read, found]
    rfl

/-- A quoted character stands for itself, whatever the character is and whatever follows, unless it
is a backslash and a quote follows. Then all four characters stand for a quote.
-/
theorem tokenize_quoted (c : Char) (text : List Char)
    : ((c = '\\' → text.head? ≠ some '\'') → StandsBefore ['\'', c, '\''] c text)
      ∧ StandsBefore ['\'', '\\', '\'', '\''] '\'' text := by
  constructor
  · intro plain
    refine standsBefore_of_spelled ?_
    have noEscape : ∀ more, c = '\\' → text = '\'' :: more → False := by
      rintro more backslash rfl
      exact plain backslash rfl
    exact spelled.eq_5 0 c text noEscape
  · exact standsBefore_of_spelled rfl

/-- A quoted backslash before a group, and before a quote that opens nothing: that one does not
follow at once, so it makes no escape of the backslash.
-/
theorem tokenize_quoted_backslash
    : tokenize "'\\'(a)".toList
        = .ok [.literal '\\', .head .concat, .openGroup, .literal 'a', .closeGroup]
      ∧ tokenize "'\\'n'".toList = .error (.unterminatedLiteral 4) := by
  have group := (tokenize_quoted '\\' "(a)".toList).1 (by decide)
  have fault := (tokenize_quoted '\\' "n'".toList).1 (by decide)
  exact ⟨group.1 [.openGroup, .literal 'a', .closeGroup] (by decide), fault.2 1 (by decide)⟩

/-- Before a quoted letter a quoted backslash does not stand for itself. -/
theorem not_standsBefore_backslash
    : tokenize "'a'".toList = .ok [.literal 'a']
      ∧ tokenize "'\\''a'".toList = .error (.unterminatedLiteral 5)
      ∧ ¬StandsBefore "'\\'".toList '\\' "'a'".toList := by
  have alone : tokenize "'a'".toList = .ok [.literal 'a'] := by decide
  have together : tokenize "'\\''a'".toList = .error (.unterminatedLiteral 5) := by decide
  refine ⟨alone, together, fun stands => ?_⟩
  have read : tokenize "'\\''a'".toList = .ok [.literal '\\', .head .concat, .literal 'a'] :=
    stands.1 _ alone
  rw [together] at read
  cases read

end Munch.Regex
