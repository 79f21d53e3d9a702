import Munch.Proofs.InfixReading

/-! Expressions written in infix notation. Every character stands in quotes, and parentheses stand
only around an operand that binds less tightly than its place asks. What is written reads as the
expression, and no tokens that are derived with the expression are fewer.
-/

namespace Munch.Regex

-----------------------------------------------------------------------------------------
-- The writer
-----------------------------------------------------------------------------------------

/-- The nonterminal that derives an expression by its outermost operator. -/
def level : Regex → Level
  | .literal _ => .atom
  | .star _ | .plus _ => .factor
  | .concat _ _ => .term
  | .union _ _ => .expression

/-- The tokens of an operand, in parentheses if it binds less tightly than its place asks. -/
def operand (place : Level) (tree : Regex) (tokens : List Token) : List Token :=
  if tree.level.bound < place.bound then .openGroup :: (tokens ++ [.closeGroup]) else tokens

/-- The tokens of an expression, without the concatenations that are understood. A repetition takes
a literal or a repetition as it is. Of a concatenation, the first operand may be another one, but
the second may not; and the same holds of a union.
-/
def writtenTokens : Regex → List Token
  | .literal c => [.literal c]
  | .star inner => operand .factor inner inner.writtenTokens ++ [.head .star]
  | .plus inner => operand .factor inner inner.writtenTokens ++ [.head .plus]
  | .concat left right =>
      operand .term left left.writtenTokens ++ operand .factor right right.writtenTokens
  | .union left right =>
      operand .expression left left.writtenTokens
        ++ .head .union :: operand .term right right.writtenTokens

/-- A character in quotes. Only the backslash is escaped. -/
def quoted (c : Char) : List Char :=
  if c = '\\' then ['\'', '\\', '\\', '\''] else ['\'', c, '\'']

/-- How a token is written; a concatenation is understood. -/
def Token.spelling : Token → List Char
  | .openGroup => ['(']
  | .closeGroup => [')']
  | .head (.literal c) => quoted c
  | .head .star => ['*']
  | .head .plus => ['+']
  | .head .union => ['|']
  | .head .concat => []

/-- The expression in infix notation. -/
def written (tree : Regex) : List Char :=
  tree.writtenTokens.flatMap Token.spelling

-----------------------------------------------------------------------------------------
-- What is written falls into its tokens again
-----------------------------------------------------------------------------------------

/-- A quoted character is read as such, whatever follows: no other character makes an escape of what
stands behind it.
-/
theorem spelled_quoted (position : Nat) (c : Char) (rest : List Char)
    : ∃ position',
        spelled position (quoted c ++ rest)
          = (spelled position' rest).map (.literal c :: ·) := by
  unfold quoted
  split
  · rename_i same
    refine ⟨position + 4, ?_⟩
    simp [spelled, same, unescape]
  · rename_i other
    refine ⟨position + 3, ?_⟩
    simp [spelled, other]

/-- Tokens that are written by their spellings are spelled so, by induction on the tokens. -/
theorem spelled_spelling {tokens : List Token} (implicit : .head .concat ∉ tokens)
    (position : Nat)
    : spelled position (tokens.flatMap Token.spelling) = .ok tokens := by
  induction tokens generalizing position with
  | nil => rfl
  | cons token tokens ih =>
      have implicit' : .head .concat ∉ tokens := fun mem => implicit (List.mem_cons_of_mem _ mem)
      rw [List.flatMap_cons]
      cases token with
      | openGroup | closeGroup => simp [Token.spelling, spelled, ih implicit', Except.map]
      | head symbol =>
          cases symbol with
          | literal c =>
              obtain ⟨position', read⟩ :=
                spelled_quoted position c (tokens.flatMap Token.spelling)
              rw [Token.spelling, read, ih implicit']
              rfl
          | concat => exact absurd List.mem_cons_self implicit
          | star | plus | union => simp [Token.spelling, spelled, ih implicit', Except.map]

-----------------------------------------------------------------------------------------
-- The tokens are derived with the expression
-----------------------------------------------------------------------------------------

/-- No level has a bound below the one of expressions. -/
theorem Level.expression_bound_le (level : Level) : Level.expression.bound ≤ level.bound := by
  cases level <;> decide

/-- No level has a bound above the one of atoms. -/
theorem Level.bound_le_atom (level : Level) : level.bound ≤ Level.atom.bound := by
  cases level <;> decide

/-- What one nonterminal derives, those that ask for less tight binding derive as well. -/
theorem Derives.loosen {tight loose : Level} {tokens : List Token} {tree : Regex}
    (h : Derives tight tokens tree) (le : loose.bound ≤ tight.bound)
    : Derives loose tokens tree := by
  cases tight with
  | expression =>
      cases loose with
      | expression => exact h
      | term | factor | atom => exact absurd le (by decide)
  | term =>
      cases loose with
      | expression => exact .term h
      | term => exact h
      | factor | atom => exact absurd le (by decide)
  | factor =>
      cases loose with
      | expression => exact .term (.factor h)
      | term => exact .factor h
      | factor => exact h
      | atom => exact absurd le (by decide)
  | atom =>
      cases loose with
      | expression => exact .term (.factor (.atom h))
      | term => exact .factor (.atom h)
      | factor => exact .atom h
      | atom => exact h

/-- With the parentheses that its place asks for, an operand is derived there. -/
theorem derives_operand (place : Level) {tree : Regex} {tokens : List Token}
    (h : Derives tree.level tokens tree)
    : Derives place (operand place tree tokens) tree := by
  unfold operand
  split
  · have inner := h.loosen (Level.expression_bound_le _)
    exact (Derives.group inner).loosen (Level.bound_le_atom place)
  · rename_i tight
    exact h.loosen (Nat.le_of_not_lt tight)

/-- By induction on the expression: each operand is derived in its place. -/
theorem derives_writtenTokens (tree : Regex) : Derives tree.level tree.writtenTokens tree := by
  induction tree with
  | literal c => exact .literal c
  | star inner ih => exact .star (derives_operand .factor ih)
  | plus inner ih => exact .plus (derives_operand .factor ih)
  | concat left right ihLeft ihRight =>
      exact .concat (derives_operand .term ihLeft) (derives_operand .factor ihRight)
  | union left right ihLeft ihRight =>
      exact .union (derives_operand .expression ihLeft) (derives_operand .term ihRight)

/-- The grammar derives no tokens with a concatenation of their own, by induction on the derivation.
-/
theorem concat_not_mem_of_derives {level : Level} {tokens : List Token} {tree : Regex}
    (h : Derives level tokens tree)
    : .head .concat ∉ tokens := by
  induction h with
  | literal c => simp
  | group _ ih => simpa using ih
  | atom _ ih | factor _ ih | term _ ih => exact ih
  | star _ ih | plus _ ih => simpa using ih
  | concat _ _ ihFirst ihSecond | union _ _ ihFirst ihSecond => simp [ihFirst, ihSecond]

-----------------------------------------------------------------------------------------
-- No derived tokens are fewer
-----------------------------------------------------------------------------------------

/-- A place that asks for tighter binding takes no fewer tokens. -/
theorem length_operand_mono {loose tight : Level} (le : loose.bound ≤ tight.bound) (tree : Regex)
    (tokens : List Token)
    : (operand loose tree tokens).length ≤ (operand tight tree tokens).length := by
  unfold operand
  split
  · rename_i grouped
    rw [if_pos (Nat.lt_of_lt_of_le grouped le)]
  · split
    · simp
      omega
    · exact Nat.le_refl _

/-- An expression needs no parentheses where no operator is around it. -/
theorem operand_expression (tree : Regex) (tokens : List Token)
    : operand .expression tree tokens = tokens :=
  if_neg (Nat.not_lt.mpr (Level.expression_bound_le _))

/-- At its own level an expression stands without parentheses. -/
theorem operand_level (tree : Regex) (tokens : List Token)
    : operand tree.level tree tokens = tokens :=
  if_neg (Nat.lt_irrefl _)

/-- A place costs two parentheses at most. -/
theorem length_operand_le_add_two (place : Level) (tree : Regex) (tokens : List Token)
    : (operand place tree tokens).length ≤ tokens.length + 2 := by
  unfold operand
  split <;> simp

/-- Tokens that are derived with an expression in some place are at least as many as are written
there, by induction on the derivation.
-/
theorem length_operand_le {place : Level} {tokens : List Token} {tree : Regex}
    (h : Derives place tokens tree)
    : (operand place tree tree.writtenTokens).length ≤ tokens.length := by
  induction h with
  | literal c => exact Nat.le_refl _
  | @group tokens tree _ ih =>
      rw [operand_expression] at ih
      have atMost := length_operand_le_add_two .atom tree tree.writtenTokens
      simp only [List.length_cons, List.length_append, List.length_nil]
      omega
  | atom _ ih | factor _ ih | term _ ih =>
      exact Nat.le_trans (length_operand_mono (by decide) _ _) ih
  | @star tokens inner _ ih =>
      have whole : operand .factor inner.star inner.star.writtenTokens = inner.star.writtenTokens :=
        operand_level inner.star _
      rw [whole, writtenTokens]
      simpa using ih
  | @plus tokens inner _ ih =>
      have whole : operand .factor inner.plus inner.plus.writtenTokens = inner.plus.writtenTokens :=
        operand_level inner.plus _
      rw [whole, writtenTokens]
      simpa using ih
  | @concat front back left right _ _ ihFirst ihSecond =>
      have whole : operand .term (.concat left right) (writtenTokens (.concat left right))
          = writtenTokens (.concat left right) :=
        operand_level (.concat left right) _
      rw [whole, writtenTokens]
      simp only [List.length_append]
      omega
  | union _ _ ihFirst ihSecond =>
      rw [operand_expression, writtenTokens]
      simp only [List.length_append, List.length_cons]
      omega

/-- Every expression is read from what is written for it, over whatever characters, and it cannot be
written with fewer parentheses: no sequence of tokens that is derived with it is shorter.
-/
theorem parse_written (tree : Regex)
    : parse (.ofList tree.written) = .ok tree
      ∧ ∀ tokens,
          Derives .expression tokens tree → tree.writtenTokens.length ≤ tokens.length := by
  have derived := tree.derives_writtenTokens
  constructor
  · have tokenized : tokenize tree.written = .ok (concatenated tree.writtenTokens) := by
      rw [tokenize, written, spelled_spelling (concat_not_mem_of_derives derived)]
      rfl
    rw [parse, String.toList_ofList, ofInfix, tokenized]
    exact ofTokens_of_derives (derived.loosen (Level.expression_bound_le _))
  · intro tokens other
    simpa [operand_expression] using length_operand_le other

/-- Parentheses within parentheses, and a backslash, a quote and a parenthesis as characters. -/
example
    : (written (.concat (.star (.union (.literal '\\') (.concat (.literal 'a') (.literal '\''))))
          (.concat (.plus (.star (.literal '('))) (.union (.literal 'b') (.literal 'c')))))
      = "('\\\\'|'a'''')*('('*+('b'|'c'))".toList := by
  decide +kernel

end Munch.Regex
