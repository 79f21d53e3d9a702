import Munch.Proofs.QuotedCharacters

/-! White space between two texts. No spelling of a token goes on with white space unless the white
space is quoted, so what stands before it falls into the tokens that it has alone, and what stands
behind it does the same. Only a concatenation may be understood between the two.
-/

namespace Munch.Regex

section Gap

variable {front gap back : List Char}

-----------------------------------------------------------------------------------------
-- Spellings stop at white space
-----------------------------------------------------------------------------------------

/-- A mark without white space does not reach from a text into the white space behind it. -/
theorem exists_eq_append_of_gap {rest more : List Char} (some : gap ≠ [])
    (white : ∀ c ∈ gap, Text.isWhite c = true) (mark : List Char)
    (dark : mark.any Text.isWhite = false) (h : rest ++ gap ++ back = mark ++ more)
    : ∃ others, rest = mark ++ others := by
  rw [List.append_assoc] at h
  rcases List.append_eq_append_iff.mp h with ⟨inGap, rfl, behind⟩ | ⟨others, rfl, _⟩
  · obtain ⟨c, gap, rfl⟩ := List.exists_cons_of_ne_nil some
    cases inGap with
    | nil => exact ⟨[], by simp⟩
    | cons d inGap =>
        obtain ⟨rfl, _⟩ := List.cons.inj behind
        exact absurd (white c List.mem_cons_self) (List.any_eq_false.mp dark c (by simp))
  · exact ⟨others, rfl⟩

/-- White space outside of quotes spells nothing. -/
theorem spelled_cons_of_white {c : Char} (white : Text.isWhite c = true) (position : Nat)
    (rest : List Char)
    : spelled position (c :: rest) = spelled (position + 1) rest := by
  have other {d : Char} (dark : Text.isWhite d = false) : c ≠ d := by
    rintro rfl
    rw [dark] at white
    cases white
  rw [spelled, if_pos white]
  all_goals
    intros
    exact absurd ‹_› (other (by decide))

/-- White space at the front adds no token; it only moves the others, by induction on it. -/
theorem spelled_gap (white : ∀ c ∈ gap, Text.isWhite c = true) (position : Nat)
    : spelled position (gap ++ back) = spelled (position + gap.length) back := by
  induction gap generalizing position with
  | nil => rfl
  | cons c gap ih =>
      obtain ⟨first, others⟩ := List.forall_mem_cons.mp white
      rw [List.cons_append, spelled_cons_of_white first, ih others, List.length_cons,
        Nat.add_assoc, Nat.add_comm 1]

/-- If what is left of the text falls into its own tokens before the white space, so it does behind
the token that has been read.
-/
theorem map_spelled_append_gap (token : List Token) {rest : List Char} {position width : Nat}
    {tokens : List Token} (longer : front.length = rest.length + width)
    (ih : ∀ {inner},
      spelled (position + width) rest = .ok inner
      → spelled (position + width) (rest ++ gap ++ back)
        = (spelled (position + width + (rest ++ gap).length) back).map (inner ++ ·))
    (read : (spelled (position + width) rest).map (token ++ ·) = .ok tokens)
    : (spelled (position + width) (rest ++ gap ++ back)).map (token ++ ·)
      = (spelled (position + (front ++ gap).length) back).map (tokens ++ ·) := by
  obtain ⟨inner, found, rfl⟩ := map_eq_ok_iff.mp read
  have place : position + width + (rest ++ gap).length = position + (front ++ gap).length := by
    rw [List.length_append, List.length_append]
    omega
  rw [ih found, place]
  cases spelled (position + (front ++ gap).length) back with
  | error cause => rfl
  | ok more => exact congrArg Except.ok (List.append_assoc token inner more).symm

/-- What stands before white space falls into its own tokens, by induction on it: each spelling in
it is the one that is found with the white space and more behind it.
-/
theorem spelled_append_gap {position : Nat} {tokens : List Token} (some : gap ≠ [])
    (white : ∀ c ∈ gap, Text.isWhite c = true) (read : spelled position front = .ok tokens)
    : spelled position (front ++ gap ++ back)
      = (spelled (position + (front ++ gap).length) back).map (tokens ++ ·) := by
  fun_induction spelled position front generalizing tokens with
  | case1 position =>
      obtain rfl := Except.ok.inj read
      rw [List.nil_append, spelled_gap white]
      cases spelled (position + gap.length) back <;> rfl
  | case2 position rest ih | case3 position rest ih => exact map_spelled_append_gap _ rfl ih read
  | case4 position c rest ih => exact map_spelled_append_gap [_] rfl ih read
  | case5 position c rest noEscape ih =>
      have here : spelled position ('\'' :: c :: '\'' :: (rest ++ gap ++ back))
          = (spelled (position + 3) (rest ++ gap ++ back)).map (.literal c :: ·) := by
        rw [spelled]
        intro more backslash behind
        obtain ⟨others, same⟩ := exists_eq_append_of_gap some white ['\''] (by decide) behind
        exact noEscape others backslash same
      exact here.trans (map_spelled_append_gap [_] rfl ih read)
  | case6 => cases read
  | case7 position rest ih | case8 position rest ih | case9 position rest ih
  | case10 position rest ih | case11 position rest ih =>
      exact map_spelled_append_gap [_] rfl ih read
  | case12 position c rest _ _ _ _ _ _ _ _ _ _ here ih =>
      have place : position + 1 + (rest ++ gap).length
          = position + (c :: rest ++ gap).length := by
        rw [List.cons_append, List.length_cons]
        omega
      rw [List.cons_append, List.cons_append, spelled_cons_of_white here, ih read, place]
      rfl
  | case13 position c rest noLower noDigits _ _ noQuote _ _ _ _ _ dark ih =>
      have here : spelled position (c :: (rest ++ gap ++ back))
          = (spelled (position + 1) (rest ++ gap ++ back)).map (.literal c :: ·) := by
        rw [spelled, if_neg dark]
        · intro more bracket behind
          obtain ⟨others, same⟩ :=
            exists_eq_append_of_gap some white ['a', '-', 'z', ']'] (by decide) behind
          exact noLower others bracket same
        · intro more bracket behind
          obtain ⟨others, same⟩ :=
            exists_eq_append_of_gap some white ['0', '-', '9', ']'] (by decide) behind
          exact noDigits others bracket same
        -- the spellings with a quote are left, and the single characters
        · exact fun _ _ quote _ => noQuote quote
        · exact fun _ _ quote _ => noQuote quote
        all_goals assumption
      exact here.trans (map_spelled_append_gap [_] rfl ih read)

end Gap

-----------------------------------------------------------------------------------------
-- Tokens on both sides
-----------------------------------------------------------------------------------------

/-- The last token is a literal, the end of a group, or a repetition. -/
def endsWithOperand (tokens : List Token) : Bool :=
  match tokens.getLast? with
  | some (.head (.literal _)) | some .closeGroup | some (.head .plus) | some (.head .star) => true
  | _ => false

/-- The first token is a literal or the beginning of a group. -/
def beginsWithOperand (tokens : List Token) : Bool :=
  match tokens.head? with
  | some (.head (.literal _)) | some .openGroup => true
  | _ => false

/-- Two sequences of tokens one after the other, with one concatenation where two operands meet. -/
def sideBySide (front back : List Token) : List Token :=
  if endsWithOperand front && beginsWithOperand back then front ++ .head .concat :: back
  else front ++ back

/-- Whether tokens end with an operand is told by their last token. -/
theorem endsWithOperand_eq (tokens : List Token)
    : endsWithOperand tokens = tokens.getLast?.any Token.endsOperand := by
  rw [endsWithOperand]
  match tokens.getLast? with
  | none | some .openGroup | some .closeGroup => rfl
  | some (.head symbol) => cases symbol <;> rfl

/-- Whether tokens begin with an operand is told by their first token. -/
theorem beginsWithOperand_eq (tokens : List Token)
    : beginsWithOperand tokens = tokens.head?.any Token.beginsOperand := by
  rw [beginsWithOperand]
  match tokens.head? with
  | none | some .openGroup | some .closeGroup => rfl
  | some (.head symbol) => cases symbol <;> rfl

/-- Two sequences side by side have between them the concatenation that is understood there. -/
theorem sideBySide_eq (front back : List Token)
    : sideBySide front back = front ++ seam front back ++ back := by
  rw [sideBySide, endsWithOperand_eq, beginsWithOperand_eq, seam]
  cases front.getLast? with
  | none => simp
  | some left =>
      cases back.head? with
      | none => simp
      | some right =>
          change (if left.juxtaposed right then _ else _)
            = front ++ (if left.juxtaposed right then [.head .concat] else []) ++ back
          split <;> simp

/-- Putting the concatenations in changes nothing about the last token. -/
theorem getLast?_concatenated (tokens : List Token)
    : (concatenated tokens).getLast? = tokens.getLast? := by
  induction tokens with
  | nil => rfl
  | cons token tokens ih =>
      rw [concatenated_cons, ← List.cons_append, List.getLast?_append, ih]
      cases tokens with
      | nil => rfl
      | cons next tokens => rw [List.getLast?_cons_cons, List.getLast?_cons, Option.some_or]

/-- The concatenations of two sequences are those of each, and the one where they meet. -/
theorem concatenated_append_eq (front back : List Token)
    : concatenated (front ++ back) = sideBySide (concatenated front) (concatenated back) := by
  rw [concatenated_append, sideBySide_eq, seam, seam, getLast?_concatenated, head?_concatenated]

/-- White space between two texts only keeps them apart: the tokens of both follow each other, with
a concatenation between them where operands meet, and a fault in the second text is found where it
is.
-/
theorem tokenize_white_between {front gap : List Char} {tokens : List Token}
    (some : gap ≠ []) (white : ∀ c ∈ gap, Text.isWhite c = true)
    (read : tokenize front = .ok tokens) (back : List Char)
    : (∀ more,
        tokenize back = .ok more
        → tokenize (front ++ gap ++ back) = .ok (sideBySide tokens more))
      ∧ ∀ position,
          tokenize back = .error (.unterminatedLiteral position)
          → tokenize (front ++ gap ++ back)
            = .error (.unterminatedLiteral (position + (front ++ gap).length)) := by
  obtain ⟨raw, found, rfl⟩ := map_eq_ok_iff.mp read
  have whole : spelled 0 (front ++ gap ++ back) = _ := spelled_append_gap some white found
  rw [spelled_later] at whole
  constructor
  · intro more tokenized
    obtain ⟨others, behind, rfl⟩ := map_eq_ok_iff.mp tokenized
    rw [tokenize, whole, behind, ← concatenated_append_eq]
    rfl
  · intro position failed
    rw [tokenize, whole, map_eq_error_iff.mp failed]
    rfl

/-- A quoted backslash before a quoted letter, and before a quote that opens nothing: with the white
space between them, the quote behind it makes no escape.
-/
theorem tokenize_backslash_apart
    : (∀ c ∈ [' ', '\n'], Text.isWhite c = true)
      ∧ tokenize "'\\'".toList = .ok [.literal '\\']
      ∧ tokenize "'\\' \n'a'".toList = .ok [.literal '\\', .head .concat, .literal 'a']
      ∧ tokenize "'\\' \n'n".toList = .error (.unterminatedLiteral 5) := by
  have white : ∀ c ∈ [' ', '\n'], Text.isWhite c = true := List.all_eq_true.mp rfl
  have read : tokenize "'\\'".toList = .ok [.literal '\\'] := by decide
  have letter := tokenize_white_between (by simp) white read "'a'".toList
  have fault := tokenize_white_between (by simp) white read "'n".toList
  exact ⟨white, read, letter.1 [.literal 'a'] (by decide), fault.2 0 (by decide)⟩

end Munch.Regex
