import Munch.Proofs.PolishReading
import Munch.Regex.Parse

/-! Trees in Polish notation, in either order of operands. The fold of head symbols gives a tree
exactly for the notation of that tree, so it drops no symbol and mends no sequence: the expression
that the fold reads is spelled as the tree that it evaluates to.
-/

namespace Munch.Regex

open Polish (Algebra Expression OperandOrder evaluateAll result_evaluateAll_cons_eq_some_iff)
open Polish.Outcome (result_andThen_eq_some_iff)

/-- Two stretches of symbols in the order in which operands come. -/
def inOrder (left right : List Head) : OperandOrder → List Head
  | .leftToRight => left ++ right
  | .rightToLeft => right ++ left

/-- The head symbols of a tree with operands in the given order. -/
def polish (order : OperandOrder) : Regex → List Head
  | .literal c => [.literal c]
  | .star inner => .star :: polish order inner
  | .plus inner => .plus :: polish order inner
  | .concat left right => .concat :: inOrder (polish order left) (polish order right) order
  | .union left right => .union :: inOrder (polish order left) (polish order right) order

/-- With operands from left to right the symbols of a tree are its preorder, by induction on the
tree.
-/
theorem polish_leftToRight (tree : Regex) : polish .leftToRight tree = preorder tree := by
  induction tree with
  | literal c => rfl
  | star inner ih | plus inner ih => rw [polish, ih, preorder]
  | concat left right ihLeft ihRight | union left right ihLeft ihRight =>
      rw [polish, ihLeft, ihRight, preorder, inOrder]

-----------------------------------------------------------------------------------------
-- The notation of a tree is an expression with that value
-----------------------------------------------------------------------------------------

/-- One operand has its tree. -/
theorem evaluateAll_one {order : OperandOrder} {expression : Expression (algebra order)}
    {tree : Regex} (evaluated : expression.evaluate.result = some tree)
    : (evaluateAll [expression]).result = some [tree] := by
  rw [Polish.evaluateAll_singleton, evaluated]
  rfl

/-- Two operands have their trees, in order. -/
theorem evaluateAll_two {order : OperandOrder} {first second : Expression (algebra order)}
    {left right : Regex} (hf : first.evaluate.result = some left)
    (hs : second.evaluate.result = some right)
    : (evaluateAll [first, second]).result = some [left, right] :=
  result_evaluateAll_cons_eq_some_iff.mpr ⟨left, [right], hf, evaluateAll_one hs, rfl⟩

/-- A symbol in front of the notation of its operands is the notation of what it makes of them. -/
theorem exists_expression_of_assemble {order : OperandOrder} {symbol : Head}
    {expressions : List (Expression (algebra order))} {values : List Regex} {tree : Regex}
    (full : expressions.length = symbol.arity)
    (evaluated : (evaluateAll expressions).result = some values)
    (assembled : ofHead? symbol ((algebra order).handed values) = some tree)
    : ∃ expression : Expression (algebra order),
        expression.items = symbol :: expressions.flatMap Expression.items
        ∧ expression.evaluate.result = some tree := by
  have full' : expressions.length = (algebra order).arity symbol := full
  obtain ⟨operands, rfl⟩ := Polish.exists_operands symbol full'
  refine ⟨.node symbol operands, Expression.items_node symbol operands, ?_⟩
  rw [Expression.evaluate_node]
  exact result_andThen_eq_some_iff.mpr ⟨values, evaluated, assembled⟩

/-- The notation of a tree is that of an expression with the tree as its value, by induction on the
tree.
-/
theorem exists_expression (order : OperandOrder) (tree : Regex)
    : ∃ expression : Expression (algebra order),
        expression.items = polish order tree ∧ expression.evaluate.result = some tree := by
  induction tree with
  | literal c =>
      have nothing : (evaluateAll ([] : List (Expression (algebra order)))).result = some [] := rfl
      have assembled : ofHead? (.literal c) ((algebra order).handed []) = some (.literal c) := by
        cases order <;> rfl
      exact exists_expression_of_assemble rfl nothing assembled
  | star inner ih | plus inner ih =>
      obtain ⟨expression, spelled, evaluated⟩ := ih
      have one := evaluateAll_one evaluated
      rw [polish, ← spelled, ← List.flatMap_singleton Expression.items]
      exact exists_expression_of_assemble rfl one (by cases order <;> rfl)
  | concat left right ihLeft ihRight | union left right ihLeft ihRight =>
      obtain ⟨first, leftSpelled, leftEvaluated⟩ := ihLeft
      obtain ⟨second, rightSpelled, rightEvaluated⟩ := ihRight
      rw [polish, ← leftSpelled, ← rightSpelled]
      cases order with
      | leftToRight =>
          have both := evaluateAll_two leftEvaluated rightEvaluated
          simpa [inOrder] using exists_expression_of_assemble rfl both rfl
      | rightToLeft =>
          have both := evaluateAll_two rightEvaluated leftEvaluated
          simpa [inOrder] using exists_expression_of_assemble rfl both rfl

-----------------------------------------------------------------------------------------
-- An expression is the notation of its value
-----------------------------------------------------------------------------------------

/-- A tree is assembled from a symbol and the operands that its notation has. -/
theorem polish_of_assemble {order : OperandOrder} {symbol : Head} {values : List Regex}
    {tree : Regex} (assembled : ofHead? symbol ((algebra order).handed values) = some tree)
    : polish order tree = symbol :: values.flatMap (polish order) := by
  cases order with
  | leftToRight =>
      have assembled : ofHead? symbol values = some tree := assembled
      unfold ofHead? at assembled
      split at assembled <;> cases assembled <;> simp [polish, inOrder]
  | rightToLeft =>
      have assembled : ofHead? symbol values.reverse = some tree := assembled
      rw [← values.reverse_reverse]
      generalize values.reverse = arranged at assembled ⊢
      unfold ofHead? at assembled
      split at assembled <;> cases assembled <;> simp [polish, inOrder]

/-- The trees of some expressions are spelled by the items of these, if that holds of each. By
induction on the expressions.
-/
theorem flatMap_polish_of_evaluateAll {order : OperandOrder}
    {expressions : List (Expression (algebra order))} {values : List Regex}
    (spelled : ∀ expression ∈ expressions, ∀ tree,
      expression.evaluate.result = some tree → polish order tree = expression.items)
    (evaluated : (evaluateAll expressions).result = some values)
    : values.flatMap (polish order) = expressions.flatMap Expression.items := by
  induction expressions generalizing values with
  | nil =>
      obtain rfl := Option.some.inj evaluated
      rfl
  | cons expression expressions ih =>
      obtain ⟨tree, trees, first, others, rfl⟩ :=
        result_evaluateAll_cons_eq_some_iff.mp evaluated
      rw [List.flatMap_cons, List.flatMap_cons, spelled expression List.mem_cons_self tree first,
        ih (fun other mem => spelled other (List.mem_cons_of_mem _ mem)) others]

/-- The tree of an expression is spelled by the items of the expression, by induction on it. -/
theorem polish_of_evaluate {order : OperandOrder} (expression : Expression (algebra order))
    {tree : Regex} (evaluated : expression.evaluate.result = some tree)
    : polish order tree = expression.items := by
  induction expression using Expression.operands_induction generalizing tree with
  | node symbol operands ih =>
      rw [Expression.evaluate_node] at evaluated
      obtain ⟨values, inner, assembled⟩ := result_andThen_eq_some_iff.mp evaluated
      rw [Expression.items_node, polish_of_assemble assembled,
        flatMap_polish_of_evaluateAll (fun operand mem tree h => ih operand mem h) inner]

/-- Symbols fold into a tree exactly where they are its notation. -/
theorem value_eq_ok_iff {order : OperandOrder} {symbols : List Head} {tree : Regex}
    : (algebra order).value symbols = .ok tree ↔ symbols = polish order tree := by
  rw [Algebra.value_eq_ok_iff]
  constructor
  · intro h
    obtain ⟨expression, rfl, evaluated⟩ := h
    exact (polish_of_evaluate expression evaluated).symm
  · intro h
    rw [h]
    exact exists_expression order tree

end Munch.Regex
