import Munch.Regex.Token

/-! Infix tokens brought into Polish notation by operator precedence. Operators wait until an
operator that binds less tightly, or the end of their group, comes; the words are collected with the
latest first, so the outcome is the reverse of postfix order and operands stand right to left. The
conversion fails exactly where parentheses are not balanced.
-/

namespace Munch.Regex

/-- How tightly an operator binds its operands. -/
def Head.precedence : Head → Nat
  | .literal _ => 0
  | .union => 1
  | .concat => 2
  | .plus | .star => 3

/-- A waiting operator has to be written before a new one may wait. -/
def Head.yieldsTo (symbol waiting : Head) : Bool :=
  symbol.precedence ≤ waiting.precedence

/-- The conversion at work: operators wait in the innermost group (`waiting`) and in the groups
around it (`outer`), and `written` is the output so far. All lists have the latest first.
-/
def reorder : List Token → (waiting : List Head) → (outer : List (List Head)) →
    (written : List Head) → Option (List Head)
  | [], waiting, [], written => some (waiting.reverse ++ written)
  -- a group is open at the end
  | [], _, _ :: _, _ => none
  | .openGroup :: tokens, waiting, outer, written => reorder tokens [] (waiting :: outer) written
  -- no group is open
  | .closeGroup :: _, _, [], _ => none
  | .closeGroup :: tokens, waiting, enclosing :: outer, written =>
      reorder tokens enclosing outer (waiting.reverse ++ written)
  | .head (.literal c) :: tokens, waiting, outer, written =>
      reorder tokens waiting outer (.literal c :: written)
  | .head symbol :: tokens, waiting, outer, written =>
      reorder tokens (symbol :: waiting.dropWhile symbol.yieldsTo) outer
        ((waiting.takeWhile symbol.yieldsTo).reverse ++ written)

/-- The head symbols of infix tokens in Polish notation, with operands right to left. -/
def toPolish (tokens : List Token) : Except ParseError (List Head) :=
  match reorder tokens [] [] [] with
  | some symbols => .ok symbols
  | none => .error .unbalancedParenthesis

end Munch.Regex
