import Munch.Proofs.InfixFaults

/-! Reordering with a single stack. Open groups wait among the operators here, so an operator must
not write a group that it finds on the stack, and a closed group must be taken from there without
being written. As a group binds less tightly than every operator, the stack is that of `reorder`
with the open groups between its parts. Whatever the tokens, nothing but parentheses is lost then,
nothing is written twice, and the literals come out in reverse.
-/

namespace Munch.Regex

/-- The token opens or closes a group. -/
def Token.isParenthesis : Token → Bool
  | .openGroup | .closeGroup => true
  | .head _ => false

/-- How tightly a token binds its operands. A parenthesis binds nothing. -/
def Token.precedence : Token → Nat
  | .openGroup | .closeGroup => 0
  | .head symbol => symbol.precedence

/-- A conversion at work. -/
structure Conversion where
  /-- Operators and open groups, the latest first. -/
  stack : List Token
  /-- The output so far, the latest token first. -/
  written : List Token

namespace Conversion

/-- Writes the operators on the stack down to the innermost open group, which is closed. -/
def close : (stack written : List Token) → Except ParseError Conversion
  | [], _ => .error .unbalancedParenthesis
  | .openGroup :: stack, written => .ok { stack, written }
  | operator :: stack, written => close stack (operator :: written)

/-- Writes the operators on the stack down to the first that binds less tightly than a new one. -/
def makeWay (operator : Token) : (stack written : List Token) → Conversion
  | [], written => { stack := [], written }
  | top :: stack, written =>
      if top.precedence < operator.precedence then { stack := top :: stack, written }
      else makeWay operator stack (top :: written)

/-- Takes in one more token. -/
def take (work : Conversion) : Token → Except ParseError Conversion
  | .head (.literal c) => .ok { work with written := .literal c :: work.written }
  | .openGroup => .ok { work with stack := .openGroup :: work.stack }
  | .closeGroup => close work.stack work.written
  | operator =>
      let ready := makeWay operator work.stack work.written
      .ok { ready with stack := operator :: ready.stack }

/-- Writes all operators that are left on the stack, unless a group is open. -/
def finish : (stack written : List Token) → Except ParseError (List Token)
  | [], written => .ok written
  | .openGroup :: _, _ => .error .unbalancedParenthesis
  | operator :: stack, written => finish stack (operator :: written)

/-- Takes in one token after the other. -/
def run : List Token → Conversion → Except ParseError (List Token)
  | [], work => finish work.stack work.written
  | token :: tokens, work => do run tokens (← work.take token)

end Conversion

/-- The tokens but for the parentheses, in Polish notation with operands right to left. -/
def converted (tokens : List Token) : Except ParseError (List Token) :=
  Conversion.run tokens { stack := [], written := [] }

-----------------------------------------------------------------------------------------
-- The groups on the stack
-----------------------------------------------------------------------------------------

/-- What is on the stack below the operators of the innermost group: the groups around it, each with
the operators that wait in it below the group that is open there.
-/
def groupsBelow : (outer : List (List Head)) → List Token
  | [] => []
  | enclosing :: outer => .openGroup :: (enclosing.map Token.head ++ groupsBelow outer)

/-- An operator binds, other than a group on the stack. -/
theorem one_le_precedence {symbol : Head} (operator : ∀ c, symbol ≠ .literal c)
    : 1 ≤ symbol.precedence := by
  cases symbol with
  | literal c => exact absurd rfl (operator c)
  | star | plus | concat | union => decide

namespace Conversion

/-- Closing a group writes the operators that wait in it, the latest one first. By induction on
them.
-/
theorem close_operators (waiting : List Head) (stack written : List Token)
    : close (waiting.map Token.head ++ stack) written
      = close stack (waiting.reverse.map Token.head ++ written) := by
  induction waiting generalizing written with
  | nil => rfl
  | cons symbol waiting ih =>
      rw [List.map_cons, List.cons_append, close, ih]
      · simp
      · simp

/-- Finishing writes the operators of the outermost group, the latest one first. By induction on
them.
-/
theorem finish_operators (waiting : List Head) (stack written : List Token)
    : finish (waiting.map Token.head ++ stack) written
      = finish stack (waiting.reverse.map Token.head ++ written) := by
  induction waiting generalizing written with
  | nil => rfl
  | cons symbol waiting ih =>
      rw [List.map_cons, List.cons_append, finish, ih]
      · simp
      · simp

/-- An operator writes no more than operators of its own group. -/
theorem makeWay_operators {symbol : Head} (operator : ∀ c, symbol ≠ .literal c)
    (waiting : List Head) (outer : List (List Head)) (written : List Token)
    : makeWay (.head symbol) (waiting.map Token.head ++ groupsBelow outer) written
      = {
          stack := (waiting.dropWhile symbol.yieldsTo).map Token.head ++ groupsBelow outer,
          written := (waiting.takeWhile symbol.yieldsTo).reverse.map Token.head ++ written
        } := by
  induction waiting generalizing written with
  | nil =>
      cases outer with
      | nil => rfl
      | cons enclosing outer => exact if_pos (one_le_precedence operator)
  | cons top waiting ih =>
      rw [List.map_cons, List.cons_append, makeWay]
      by_cases loose : (Token.head top).precedence < (Token.head symbol).precedence
      · have stays : symbol.yieldsTo top = false := decide_eq_false (Nat.not_le.mpr loose)
        rw [if_pos loose]
        simp [stays]
      · have leaves : symbol.yieldsTo top = true := decide_eq_true (Nat.not_lt.mp loose)
        rw [if_neg loose, ih]
        simp [leaves]

/-- A closing parenthesis closes the innermost group, and the run goes on behind it. -/
theorem run_closeGroup (tokens stack written : List Token)
    : run (.closeGroup :: tokens) { stack, written }
      = (close stack written).bind (run tokens) :=
  rfl

/-- An operator makes those wait no longer that bind as tightly, and goes on top of the stack. -/
theorem run_operator {symbol : Head} (operator : ∀ c, symbol ≠ .literal c)
    (tokens stack written : List Token)
    : run (.head symbol :: tokens) { stack, written }
      = run tokens
          {
            stack := .head symbol :: (makeWay (.head symbol) stack written).stack,
            written := (makeWay (.head symbol) stack written).written
          } := by
  cases symbol with
  | literal c => exact absurd rfl (operator c)
  | star | plus | concat | union => rfl

end Conversion

/-- The tokens that come of a conversion, which fails where groups are not balanced. -/
def outcome : Option (List Head) → Except ParseError (List Token)
  | some symbols => .ok (symbols.map Token.head)
  | none => .error .unbalancedParenthesis

/-- With one stack, each token does what it does to the operators of the innermost group. By
induction on the tokens.
-/
theorem run_eq_outcome (tokens : List Token) (waiting : List Head) (outer : List (List Head))
    (written : List Head)
    : Conversion.run tokens
          {
            stack := waiting.map Token.head ++ groupsBelow outer,
            written := written.map Token.head
          }
      = outcome (reorder tokens waiting outer written) := by
  fun_induction reorder tokens waiting outer written with
  | case1 waiting written =>
      rw [Conversion.run, Conversion.finish_operators]
      simp [groupsBelow, Conversion.finish, outcome]
  | case2 waiting enclosing outer written =>
      rw [Conversion.run, Conversion.finish_operators]
      rfl
  | case3 tokens waiting outer written ih => exact ih
  | case4 tokens waiting written =>
      rw [Conversion.run_closeGroup, Conversion.close_operators]
      rfl
  | case5 tokens waiting written enclosing outer ih =>
      rw [Conversion.run_closeGroup, Conversion.close_operators, ← ih, List.map_append]
      rfl
  | case6 c tokens waiting outer written ih => exact ih
  | case7 symbol tokens waiting outer written operator ih =>
      rw [Conversion.run_operator operator, Conversion.makeWay_operators operator, ← ih,
        List.map_append]
      rfl

/-- With one stack the conversion has the same outcome as with a list for each group. -/
theorem converted_eq (tokens : List Token)
    : converted tokens = (toPolish tokens).map (List.map Token.head) := by
  have same : converted tokens = outcome (reorder tokens [] [] []) :=
    run_eq_outcome tokens [] [] []
  rw [same, toPolish]
  cases reorder tokens [] [] [] <;> rfl

-----------------------------------------------------------------------------------------
-- What becomes of the tokens
-----------------------------------------------------------------------------------------

/-- The character of a literal. -/
def Head.character? : Head → Option Char
  | .literal c => some c
  | _ => none

/-- The characters of the literals among some symbols, in order. -/
def characters (symbols : List Head) : List Char :=
  symbols.filterMap Head.character?

/-- The literals of two stretches stand one behind the other. -/
theorem characters_append (front back : List Head)
    : characters (front ++ back) = characters front ++ characters back :=
  List.filterMap_append

/-- Operators are no literals. -/
theorem characters_of_operators {symbols : List Head} (operators : Operators symbols)
    : characters symbols = [] := by
  refine List.filterMap_eq_nil_iff.mpr fun symbol mem => ?_
  have takes := operators symbol mem
  cases symbol with
  | literal c => simp [Head.arity] at takes
  | star | plus | concat | union => rfl

/-- No literal ever waits, so literals are written as they come. By induction on the tokens. -/
theorem characters_of_reorder {tokens : List Token} {waiting : List Head}
    {outer : List (List Head)} {written symbols : List Head}
    (h : reorder tokens waiting outer written = some symbols)
    (operators : Operators (waiting ++ outer.flatten))
    : characters symbols = (characters (heads tokens)).reverse ++ characters written := by
  fun_induction reorder tokens waiting outer written with
  | case1 waiting written =>
      obtain rfl := Option.some.inj h
      rw [List.flatten_nil, List.append_nil] at operators
      rw [characters_append, characters_of_operators operators.reverse]
      rfl
  | case2 => cases h
  | case3 tokens waiting outer written ih => exact ih h operators
  | case4 => cases h
  | case5 tokens waiting written enclosing outer ih =>
      rw [List.flatten_cons] at operators
      obtain ⟨own, others⟩ := List.forall_mem_append.mp operators
      rw [ih h others, characters_append, characters_of_operators (Operators.reverse own)]
      rfl
  | case6 c tokens waiting outer written ih =>
      rw [ih h operators]
      simp [heads, characters, Head.character?]
  | case7 symbol tokens waiting outer written operator ih =>
      obtain ⟨leaving, staying⟩ := operators.makeWay symbol
      have waiting' : Operators (symbol :: waiting.dropWhile symbol.yieldsTo ++ outer.flatten) :=
        List.forall_mem_cons.mpr ⟨one_le_arity operator, staying⟩
      have own : characters (heads (.head symbol :: tokens)) = characters (heads tokens) := by
        refine List.filterMap_cons_none ?_
        cases symbol with
        | literal c => exact absurd rfl (operator c)
        | star | plus | concat | union => rfl
      rw [ih h waiting', characters_append, characters_of_operators leaving.reverse, own]
      rfl

/-- The tokens without the parentheses are the head symbols, by induction on the tokens. -/
theorem filter_not_isParenthesis (tokens : List Token)
    : tokens.filter (!·.isParenthesis) = (heads tokens).map Token.head := by
  induction tokens with
  | nil => rfl
  | cons token tokens ih =>
      cases token with
      | openGroup | closeGroup => exact ih
      | head symbol => exact congrArg (Token.head symbol :: ·) ih

/-- Head symbols as tokens have themselves as head symbols, by induction on them. -/
theorem heads_map_head (symbols : List Head) : heads (symbols.map Token.head) = symbols := by
  induction symbols with
  | nil => rfl
  | cons symbol symbols ih => exact congrArg (symbol :: ·) ih

/-- The conversion succeeds exactly if the parentheses match. -/
theorem exists_toPolish_iff {tokens : List Token}
    : (∃ symbols, toPolish tokens = .ok symbols) ↔ GroupsMatch tokens := by
  constructor
  · intro h
    obtain ⟨symbols, reordered⟩ := h
    by_contra loose
    cases (toPolish_of_not_groupsMatch loose).symm.trans reordered
  · exact toPolish_of_groupsMatch

/-- With one stack the outcome is the same, and it is an output exactly if the parentheses match.
The output has no parenthesis, all other tokens as often as they come, and the literals in reverse.
-/
theorem converted_exact (tokens : List Token)
    : converted tokens = (toPolish tokens).map (List.map Token.head)
      ∧ ((∃ output, converted tokens = .ok output) ↔ GroupsMatch tokens)
      ∧ ∀ output,
          converted tokens = .ok output
          → (∀ token ∈ output, token.isParenthesis = false)
            ∧ output.Perm (tokens.filter (!·.isParenthesis))
            ∧ characters (heads output) = (characters (heads tokens)).reverse := by
  rw [converted_eq]
  refine ⟨rfl, ?_, fun output success => ?_⟩
  · rw [← exists_toPolish_iff]
    cases toPolish tokens <;> simp [Except.map]
  · obtain ⟨symbols, reordered, rfl⟩ := map_eq_ok_iff.mp success
    rw [toPolish_eq_ok_iff] at reordered
    have kept : symbols.Perm (heads tokens) := by
      simpa using perm_of_reorder reordered
    have turned := characters_of_reorder reordered (by simp [Operators])
    refine ⟨?_, ?_, ?_⟩
    · simp [Token.isParenthesis]
    · rw [filter_not_isParenthesis]
      exact kept.map Token.head
    · rw [heads_map_head, turned]
      simp [characters]

/-- The head symbol that a token is. A parenthesis is none, and the error names it. -/
def Head.ofToken : Token → Except ParseError Head
  | .head symbol => .ok symbol
  | token => .error (.unknownToken (.ofList token.name))

/-- Head symbols as tokens are taken for themselves, by induction on them. -/
theorem mapM_ofToken_map_head (symbols : List Head)
    : (symbols.map Token.head).mapM Head.ofToken = .ok symbols := by
  induction symbols with
  | nil => rfl
  | cons symbol symbols ih =>
      rw [List.map_cons, List.mapM_cons, ih]
      rfl

/-- The tree of some tokens is the fold of what the tokens of the output are. No parenthesis is met
there, so none is ever named as unknown.
-/
theorem ofTokens_eq_converted (tokens : List Token)
    : (ofTokens tokens = do
        let output ← converted tokens
        ofPolish .rightToLeft (← output.mapM Head.ofToken))
      ∧ ∀ output,
          converted tokens = .ok output → ∃ symbols, output.mapM Head.ofToken = .ok symbols := by
  rw [ofTokens, converted_eq]
  cases toPolish tokens with
  | error error =>
      refine ⟨rfl, fun output success => ?_⟩
      cases success
  | ok symbols =>
      have back : (symbols.map Token.head).mapM Head.ofToken = .ok symbols :=
        mapM_ofToken_map_head symbols
      refine ⟨?_, fun output same => ⟨symbols, Except.ok.inj same ▸ back⟩⟩
      change ofPolish .rightToLeft symbols = (symbols.map Token.head).mapM Head.ofToken >>= _
      rw [back]
      rfl

end Munch.Regex
