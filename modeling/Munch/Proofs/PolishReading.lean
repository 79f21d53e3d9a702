import Mathlib.Tactic.Common
import Munch.Polish

/-! The fold of a sequence in Polish notation against a recursive reading of the sequence. An
expression is an item followed by as many expressions as the item takes. A sequence either starts
with an expression or ends inside of one, and this decides what the fold hands to the assembly, its
value, and its error.
-/

namespace Munch.Polish

variable {κ ν α β γ : Type}

-----------------------------------------------------------------------------------------
-- Outcomes one after the other
-----------------------------------------------------------------------------------------

namespace Outcome

/-- Goes on with what an outcome results in, unless something was rejected. -/
def andThen (outcome : Outcome κ ν (Option α)) (rejected : β) (next : α → Outcome κ ν β)
    : Outcome κ ν β :=
  match outcome.result with
  | none => ⟨outcome.assembled, rejected⟩
  | some value => ⟨outcome.assembled ++ (next value).assembled, (next value).result⟩

/-- The results of several outcomes, up to the first in which something was rejected. -/
def inTurn : List (Outcome κ ν (Option α)) → Outcome κ ν (Option (List α))
  | [] => ⟨[], some []⟩
  | outcome :: outcomes =>
      outcome.andThen none fun value =>
        (inTurn outcomes).andThen none fun values => ⟨[], some (value :: values)⟩

/-- Behind a value for which nothing was called comes the next outcome alone. -/
@[simp] theorem some_andThen (value : α) (rejected : β) (next : α → Outcome κ ν β)
    : (⟨[], some value⟩ : Outcome κ ν (Option α)).andThen rejected next = next value :=
  rfl

/-- Going on with nothing but the value changes nothing. -/
theorem andThen_some (outcome : Outcome κ ν (Option α))
    : outcome.andThen none (fun value => ⟨[], some value⟩) = outcome := by
  obtain ⟨assembled, _ | value⟩ := outcome <;> simp [andThen]

/-- Three outcomes one behind the other are the same, whichever two are taken together first. -/
theorem andThen_assoc (outcome : Outcome κ ν (Option α)) (rejected : γ)
    (next : α → Outcome κ ν (Option β)) (last : β → Outcome κ ν γ)
    : (outcome.andThen none next).andThen rejected last
      = outcome.andThen rejected fun value => (next value).andThen rejected last := by
  cases first : outcome.result with
  | none => simp [andThen, first]
  | some value =>
      cases second : (next value).result with
      | none | some _ => simp [andThen, first, second]

/-- What follows an outcome matters only for the result of the outcome. -/
theorem andThen_congr {outcome : Outcome κ ν (Option α)} {rejected : β}
    {left right : α → Outcome κ ν β}
    (same : ∀ value, outcome.result = some value → left value = right value)
    : outcome.andThen rejected left = outcome.andThen rejected right := by
  cases first : outcome.result with
  | none => simp [andThen, first]
  | some value => simp [andThen, first, same value first]

/-- The outcomes of two stretches come one stretch behind the other, by induction on the first. -/
theorem inTurn_append (left right : List (Outcome κ ν (Option α)))
    : inTurn (left ++ right)
      = (inTurn left).andThen none fun values =>
          (inTurn right).andThen none fun more => ⟨[], some (values ++ more)⟩ := by
  induction left with
  | nil => exact (andThen_some _).symm
  | cons outcome left ih =>
      simp only [List.cons_append, inTurn, ih, andThen_assoc, some_andThen]

/-- Two outcomes have a value together if the first has one and then the second. -/
theorem result_andThen_eq_some_iff {outcome : Outcome κ ν (Option α)}
    {next : α → Outcome κ ν (Option β)} {value : β}
    : (outcome.andThen none next).result = some value
      ↔ ∃ first, outcome.result = some first ∧ (next first).result = some value := by
  cases result : outcome.result with
  | none | some first => simp [andThen, result]

/-- Several outcomes have their values if the first one has one and the others have theirs. -/
theorem result_inTurn_cons_eq_some_iff {outcome : Outcome κ ν (Option α)}
    {outcomes : List (Outcome κ ν (Option α))} {values : List α}
    : (inTurn (outcome :: outcomes)).result = some values
      ↔ ∃ value more,
          outcome.result = some value
          ∧ (inTurn outcomes).result = some more
          ∧ value :: more = values := by
  simp only [inTurn, result_andThen_eq_some_iff, Option.some.injEq, exists_and_left]

/-- There are as many values as outcomes, by induction on the outcomes. -/
theorem length_of_inTurn {outcomes : List (Outcome κ ν (Option α))} {values : List α}
    (accepted : (inTurn outcomes).result = some values)
    : values.length = outcomes.length := by
  induction outcomes generalizing values with
  | nil =>
      obtain rfl := Option.some.inj accepted
      rfl
  | cons outcome outcomes ih =>
      obtain ⟨value, more, _, others, rfl⟩ := result_inTurn_cons_eq_some_iff.mp accepted
      rw [List.length_cons, List.length_cons, ih others]

end Outcome

-----------------------------------------------------------------------------------------
-- The recursive reading
-----------------------------------------------------------------------------------------

/-- An item with as many operands as it takes, in the order in which they are read. -/
inductive Expression (algebra : Algebra κ ν) : Type where
  | node (item : κ) (operands : Fin (algebra.arity item) → Expression algebra)

/-- An item with some of its operands but not all, in the order in which they are read. -/
structure Unfinished (algebra : Algebra κ ν) where
  item : κ
  operands : List (Expression algebra)
  lacks : operands.length < algebra.arity item

/-- The values of operands in reading order as the assembly gets them. -/
def Algebra.handed (algebra : Algebra κ ν) (values : List ν) : List ν :=
  match algebra.order with
  | .leftToRight => values
  | .rightToLeft => values.reverse

variable {algebra : Algebra κ ν}

/-- The items of an expression, each before its operands. -/
def Expression.items : Expression algebra → List κ
  | node item operands => item :: (List.ofFn fun i => (operands i).items).flatten

/-- The items of an expression, each after its operands. -/
def Expression.completed : Expression algebra → List κ
  | node item operands => (List.ofFn fun i => (operands i).completed).flatten ++ [item]

/-- The value of an expression with the calls of the assembly that it takes: those for the operands,
one operand after the other, then the one for the item. Nothing is called after a rejection.
-/
def Expression.evaluate : Expression algebra → Outcome κ ν (Option ν)
  | node item operands =>
      (Outcome.inTurn (List.ofFn fun i => (operands i).evaluate)).andThen none fun values =>
        ⟨[(item, algebra.handed values)], algebra.assemble item (algebra.handed values)⟩

/-- The values of expressions, one after the other. -/
def evaluateAll (expressions : List (Expression algebra)) : Outcome κ ν (Option (List ν)) :=
  Outcome.inTurn (expressions.map Expression.evaluate)

/-- The items of an unfinished expression that are there. -/
def Unfinished.items (unfinished : Unfinished algebra) : List κ :=
  unfinished.item :: unfinished.operands.flatMap Expression.items

/-- The expressions that are complete where the reading of a sequence stops: at the end of the first
expression, or at the end of a sequence that breaks off inside of it. There, each unfinished
expression comes after the complete operands of the one around it.
-/
inductive Complete (algebra : Algebra κ ν) : List κ → List (Expression algebra) → Prop where
  | whole (expression : Expression algebra) (rest : List κ)
      : Complete algebra (expression.items ++ rest) [expression]
  | unfinished (pending : List (Unfinished algebra))
      : Complete algebra (pending.flatMap Unfinished.items)
          (pending.flatMap Unfinished.operands)

/-- What comes of the fold of a sequence, as its reading has it. -/
inductive Folded (algebra : Algebra κ ν) : List κ → Outcome κ ν (Except Error ν) → Prop where
  | empty : Folded algebra [] ⟨[], .error .empty⟩
  /-- The sequence is one expression, which is accepted. -/
  | whole (expression : Expression algebra) {calls : List (κ × List ν)} {value : ν}
      (accepted : expression.evaluate = ⟨calls, some value⟩)
      : Folded algebra expression.items ⟨calls, .ok value⟩
  /-- The sequence goes on after an expression which is accepted. -/
  | trailing (expression : Expression algebra) {rest : List κ} {calls : List (κ × List ν)}
      {value : ν} (accepted : expression.evaluate = ⟨calls, some value⟩) (more : rest ≠ [])
      : Folded algebra (expression.items ++ rest) ⟨calls, .error (.trailing rest.length)⟩
  /-- The sequence breaks off inside of an expression, and what is complete is accepted. -/
  | incomplete {pending : List (Unfinished algebra)} {calls : List (κ × List ν)}
      {values : List ν} (begun : pending ≠ [])
      (accepted : evaluateAll (pending.flatMap Unfinished.operands) = ⟨calls, some values⟩)
      : Folded algebra (pending.flatMap Unfinished.items)
          ⟨calls, .error (.incomplete pending.length)⟩
  /-- Something complete is rejected, whether the sequence goes on, ends or breaks off. -/
  | rejected {items : List κ} {expressions : List (Expression algebra)}
      {calls : List (κ × List ν)} (complete : Complete algebra items expressions)
      (refused : evaluateAll expressions = ⟨calls, none⟩)
      : Folded algebra items ⟨calls, .error .rejected⟩

/-- An item stands before the items of its operands. -/
theorem Expression.items_node (item : κ) (operands : Fin (algebra.arity item) → Expression algebra)
    : (node item operands).items = item :: (List.ofFn operands).flatMap Expression.items := by
  rw [items, List.flatMap, List.map_ofFn]
  rfl

/-- An item is completed after its operands. -/
theorem Expression.completed_node (item : κ)
    (operands : Fin (algebra.arity item) → Expression algebra)
    : (node item operands).completed
      = (List.ofFn operands).flatMap Expression.completed ++ [item] := by
  rw [completed, List.flatMap, List.map_ofFn]
  rfl

/-- An expression is evaluated by evaluating its operands and then assembling its item. -/
theorem Expression.evaluate_node (item : κ)
    (operands : Fin (algebra.arity item) → Expression algebra)
    : (node item operands).evaluate
      = (evaluateAll (List.ofFn operands)).andThen none fun values =>
          ⟨[(item, algebra.handed values)],
            algebra.assemble item (algebra.handed values)⟩ := by
  rw [evaluate, evaluateAll, List.map_ofFn]
  rfl

/-- Induction with the operands of an item as a list. -/
@[elab_as_elim]
theorem Expression.operands_induction {motive : Expression algebra → Prop}
    (node : ∀ (item : κ) (operands : Fin (algebra.arity item) → Expression algebra),
      (∀ operand ∈ List.ofFn operands, motive operand) → motive (.node item operands))
    (expression : Expression algebra)
    : motive expression := by
  induction expression with
  | node item operands ih =>
      refine node item operands fun operand mem => ?_
      obtain ⟨i, rfl⟩ := List.mem_ofFn.mp mem
      exact ih i

/-- Expressions are the operands of an item if there are as many as it takes. -/
theorem exists_operands (item : κ) {expressions : List (Expression algebra)}
    (length_eq : expressions.length = algebra.arity item)
    : ∃ operands : Fin (algebra.arity item) → Expression algebra,
        List.ofFn operands = expressions := by
  refine ⟨fun i => expressions.get (i.cast length_eq.symm), ?_⟩
  apply List.ext_get <;> simp [length_eq]

/-- The first expression is evaluated before the others. -/
theorem evaluateAll_cons (expression : Expression algebra)
    (expressions : List (Expression algebra))
    : evaluateAll (expression :: expressions)
      = expression.evaluate.andThen none fun value =>
          (evaluateAll expressions).andThen none fun values => ⟨[], some (value :: values)⟩ :=
  rfl

/-- A single expression is evaluated as it is. -/
theorem evaluateAll_singleton (expression : Expression algebra)
    : evaluateAll [expression]
      = ⟨expression.evaluate.assembled, expression.evaluate.result.map fun value => [value]⟩ := by
  rw [evaluateAll_cons]
  cases result : expression.evaluate.result with
  | none | some value => simp [evaluateAll, Outcome.inTurn, Outcome.andThen, result]

/-- Expressions have their values if the first one has one and the others have theirs. -/
theorem result_evaluateAll_cons_eq_some_iff {expression : Expression algebra}
    {expressions : List (Expression algebra)} {values : List ν}
    : (evaluateAll (expression :: expressions)).result = some values
      ↔ ∃ value more,
          expression.evaluate.result = some value
          ∧ (evaluateAll expressions).result = some more
          ∧ value :: more = values :=
  Outcome.result_inTurn_cons_eq_some_iff

/-- Two stretches of expressions are evaluated one behind the other. -/
theorem evaluateAll_append (left right : List (Expression algebra))
    : evaluateAll (left ++ right)
      = (evaluateAll left).andThen none fun values =>
          (evaluateAll right).andThen none fun more => ⟨[], some (values ++ more)⟩ := by
  rw [evaluateAll, List.map_append, Outcome.inTurn_append]
  rfl

/-- There are as many values as expressions. -/
theorem length_of_evaluateAll {expressions : List (Expression algebra)} {values : List ν}
    (accepted : (evaluateAll expressions).result = some values)
    : values.length = expressions.length := by
  rw [Outcome.length_of_inTurn accepted, List.length_map]

-----------------------------------------------------------------------------------------
-- The fold follows the reading
-----------------------------------------------------------------------------------------

namespace Algebra

/-- Operands that were collected with the latest first are handed over as if they had been collected
in reading order.
-/
theorem arrange_reverse (values : List ν)
    : algebra.arrange values.reverse = algebra.handed values := by
  unfold arrange handed
  cases algebra.order with
  | leftToRight => exact values.reverse_reverse
  | rightToLeft => rfl

/-- What becomes of a complete value: the item that waits for it may be complete in turn. -/
def deliver (algebra : Algebra κ ν) (value : ν)
    : List (Pending κ ν) → Outcome κ ν (Progress κ ν)
  | [] => ⟨[], .finished value⟩
  | parent :: below => algebra.settle parent.item (value :: parent.operands) below

/-- The fold of the items that follow one which has been taken in. -/
def resume (algebra : Algebra κ ν) (items : List κ) (settled : Outcome κ ν (Progress κ ν))
    : Outcome κ ν (Except Error ν) :=
  match settled.result with
  | .rejected => ⟨settled.assembled, .error .rejected⟩
  | .finished value =>
      ⟨settled.assembled, if items.isEmpty then .ok value else .error (.trailing items.length)⟩
  | .waiting stack =>
      ⟨settled.assembled ++ (algebra.takeIn items stack).assembled,
        (algebra.takeIn items stack).result⟩

/-- Taking items in is settling the first one and resuming with the others. -/
theorem takeIn_cons (item : κ) (items : List κ) (stack : List (Pending κ ν))
    : algebra.takeIn (item :: items) stack
      = algebra.resume items (algebra.settle item [] stack) := by
  cases settled : (algebra.settle item [] stack).result with
  | waiting stack | finished value | rejected => simp only [takeIn, resume, settled]

/-- An item that lacks operands waits on the stack. -/
theorem resume_settle_of_lt {item : κ} {operands : List ν} {stack : List (Pending κ ν)}
    (lacks : operands.length < algebra.arity item) (items : List κ)
    : algebra.resume items (algebra.settle item operands stack)
      = algebra.takeIn items (⟨item, operands⟩ :: stack) := by
  unfold settle
  rw [if_pos lacks]
  rfl

/-- An item with all its operands is handed to the assembly, and its value to the item below. -/
theorem settle_of_length_eq {item : κ} {values : List ν}
    (complete : values.length = algebra.arity item) (stack : List (Pending κ ν))
    : algebra.settle item values.reverse stack
      = (⟨[(item, algebra.handed values)],
            algebra.assemble item (algebra.handed values)⟩ : Outcome κ ν (Option ν)).andThen
          .rejected fun value => algebra.deliver value stack := by
  have full : ¬values.reverse.length < algebra.arity item := by
    rw [List.length_reverse, complete]
    exact Nat.lt_irrefl _
  unfold settle
  rw [if_neg full, arrange_reverse]
  cases assembled : algebra.assemble item (algebra.handed values) with
  | none => simp [assembled, Outcome.andThen]
  | some value => cases stack <;> simp [assembled, deliver, Outcome.andThen]

/-- Resuming behind two outcomes is resuming behind the second one, unless the first is rejected. -/
theorem resume_andThen (items : List κ) (outcome : Outcome κ ν (Option α))
    (next : α → Outcome κ ν (Progress κ ν))
    : algebra.resume items (outcome.andThen .rejected next)
      = outcome.andThen (.error .rejected) fun value => algebra.resume items (next value) := by
  cases first : outcome.result with
  | none => simp [resume, Outcome.andThen, first]
  | some value =>
      cases second : (next value).result with
      | waiting _ | finished _ | rejected => simp [resume, Outcome.andThen, first, second]

/-- The fold reads the items of an expression and goes on with its value, wherever it does so. -/
def Reads (algebra : Algebra κ ν) (expression : Expression algebra) : Prop :=
  ∀ (rest : List κ) (stack : List (Pending κ ν)),
    algebra.takeIn (expression.items ++ rest) stack
      = expression.evaluate.andThen (.error .rejected) fun value =>
          algebra.resume rest (algebra.deliver value stack)

/-- An item that lacks operands gets the expressions that follow, by induction on those. -/
theorem resume_operands {expressions : List (Expression algebra)}
    (reads : ∀ expression ∈ expressions, algebra.Reads expression) (item : κ)
    (operands : List ν) (atMost : operands.length + expressions.length ≤ algebra.arity item)
    (rest : List κ) (stack : List (Pending κ ν))
    : algebra.resume (expressions.flatMap Expression.items ++ rest)
          (algebra.settle item operands stack)
      = (evaluateAll expressions).andThen (.error .rejected) fun values =>
          algebra.resume rest (algebra.settle item (values.reverse ++ operands) stack) := by
  induction expressions generalizing operands with
  | nil => rfl
  | cons expression expressions ih =>
      rw [List.length_cons] at atMost
      have lacks : operands.length < algebra.arity item := by omega
      have next (value : ν) := ih (fun other mem => reads other (List.mem_cons_of_mem _ mem))
        (value :: operands) (by rw [List.length_cons]; omega)
      rw [List.flatMap_cons, List.append_assoc, resume_settle_of_lt lacks,
        reads expression List.mem_cons_self, evaluateAll_cons, Outcome.andThen_assoc]
      simp only [deliver, next, Outcome.andThen_assoc, Outcome.some_andThen, List.reverse_cons,
        List.append_assoc, List.singleton_append]

/-- Every expression is read as such, by induction on the expression. -/
theorem reads (expression : Expression algebra) : algebra.Reads expression := by
  induction expression using Expression.operands_induction with
  | node item operands ih =>
      intro rest stack
      rw [Expression.items_node, List.cons_append, takeIn_cons,
        resume_operands ih item [] (by simp) rest stack, Expression.evaluate_node,
        Outcome.andThen_assoc]
      refine Outcome.andThen_congr fun values accepted => ?_
      have complete : values.length = algebra.arity item := by
        rw [length_of_evaluateAll accepted, List.length_ofFn]
      rw [List.append_nil, settle_of_length_eq complete, resume_andThen]

/-- A sequence that ends inside of an expression leaves its unfinished ones on the stack, by
induction on those.
-/
theorem takeIn_unfinished (pending : List (Unfinished algebra)) (stack : List (Pending κ ν))
    : algebra.takeIn (pending.flatMap Unfinished.items) stack
      = (evaluateAll (pending.flatMap Unfinished.operands)).andThen (.error .rejected) fun _ =>
          ⟨[], .error (.incomplete (stack.length + pending.length))⟩ := by
  induction pending generalizing stack with
  | nil => rfl
  | cons unfinished pending ih =>
      have atMost : ([] : List ν).length + unfinished.operands.length
          ≤ algebra.arity unfinished.item := by
        simpa using Nat.le_of_lt unfinished.lacks
      rw [List.flatMap_cons, List.flatMap_cons, Unfinished.items, List.cons_append, takeIn_cons,
        resume_operands (fun expression _ => reads expression) unfinished.item [] atMost,
        evaluateAll_append, Outcome.andThen_assoc]
      refine Outcome.andThen_congr fun values accepted => ?_
      have lacks : (values.reverse ++ []).length < algebra.arity unfinished.item := by
        simpa [length_of_evaluateAll accepted] using unfinished.lacks
      rw [resume_settle_of_lt lacks, ih, Outcome.andThen_assoc]
      refine Outcome.andThen_congr fun more _ => ?_
      rw [Outcome.some_andThen, List.length_cons, List.length_cons, Nat.add_assoc,
        Nat.add_comm 1]

/-- Behind the items of an expression the fold is over: with its value if nothing is left, and
otherwise with the number of items that are.
-/
theorem fold_items_append (expression : Expression algebra) (rest : List κ)
    : algebra.fold (expression.items ++ rest)
      = expression.evaluate.andThen (.error .rejected) fun value =>
          ⟨[], if rest.isEmpty then .ok value else .error (.trailing rest.length)⟩ := by
  have begun : (expression.items ++ rest).isEmpty = false := by
    cases expression
    rfl
  rw [fold, begun]
  exact reads expression rest []

/-- A sequence that breaks off inside expressions has its complete operands evaluated, and then the
items that wait are counted.
-/
theorem fold_unfinished {pending : List (Unfinished algebra)} (begun : pending ≠ [])
    : algebra.fold (pending.flatMap Unfinished.items)
      = (evaluateAll (pending.flatMap Unfinished.operands)).andThen (.error .rejected) fun _ =>
          ⟨[], .error (.incomplete pending.length)⟩ := by
  have begun' : (pending.flatMap Unfinished.items).isEmpty = false := by
    cases pending with
    | nil => exact absurd rfl begun
    | cons unfinished pending => rfl
  rw [fold, begun']
  simpa using takeIn_unfinished pending []

end Algebra

-----------------------------------------------------------------------------------------
-- Every sequence has a reading
-----------------------------------------------------------------------------------------

/-- A sequence starts with a number of expressions or breaks off before, by induction on the length
of the sequence: the operands of its first item come before the expressions that follow.
-/
theorem exists_expressions (algebra : Algebra κ ν) (items : List κ) (count : Nat)
    : (∃ (expressions : List (Expression algebra)) (rest : List κ),
          expressions.length = count ∧ items = expressions.flatMap Expression.items ++ rest)
      ∨ ∃ (expressions : List (Expression algebra)) (pending : List (Unfinished algebra)),
          expressions.length < count
          ∧ items
            = expressions.flatMap Expression.items ++ pending.flatMap Unfinished.items := by
  induction h : items.length using Nat.strongRecOn generalizing items count with
  | ind length ih =>
      cases count with
      | zero => exact .inl ⟨[], items, rfl, rfl⟩
      | succ count =>
          cases items with
          | nil => exact .inr ⟨[], [], Nat.succ_pos count, rfl⟩
          | cons item items =>
              rw [List.length_cons] at h
              obtain ⟨operands, rest, full, rfl⟩ | ⟨operands, pending, lacks, rfl⟩ :=
                ih items.length (by omega) items (algebra.arity item) rfl
              · obtain ⟨operands, rfl⟩ := exists_operands item full
                have shorter : rest.length < length := by
                  rw [← h, List.length_append]
                  omega
                obtain ⟨expressions, rest, rfl, rfl⟩ | ⟨expressions, pending, fewer, rfl⟩ :=
                  ih rest.length shorter rest count rfl
                · exact .inl ⟨.node item operands :: expressions, rest, rfl,
                    by simp [Expression.items_node]⟩
                · exact .inr ⟨.node item operands :: expressions, pending,
                    Nat.succ_lt_succ fewer, by simp [Expression.items_node]⟩
              · exact .inr ⟨[], ⟨item, operands, lacks⟩ :: pending, Nat.succ_pos count,
                  by simp [Unfinished.items]⟩

/-- Every sequence stops somewhere, with some complete expressions. -/
theorem exists_complete (algebra : Algebra κ ν) (items : List κ)
    : ∃ expressions, Complete algebra items expressions := by
  obtain ⟨expressions, rest, length_eq, rfl⟩ | ⟨expressions, pending, lt, rfl⟩ :=
    exists_expressions algebra items 1
  · obtain ⟨expression, rfl⟩ := List.length_eq_one_iff.mp length_eq
    rw [List.flatMap_singleton]
    exact ⟨[expression], .whole expression rest⟩
  · obtain rfl := List.length_eq_zero_iff.mp (Nat.lt_one_iff.mp lt)
    exact ⟨pending.flatMap Unfinished.operands, .unfinished pending⟩

-----------------------------------------------------------------------------------------
-- Calls of the assembly
-----------------------------------------------------------------------------------------

/-- The assembly is called for items in the given order, and for all of them unless one is
rejected.
-/
structure Outcome.CallsFor (outcome : Outcome κ ν (Option α)) (order : List κ) : Prop where
  isPrefix : outcome.assembled.map Prod.fst <+: order
  all : outcome.result ≠ none → outcome.assembled.map Prod.fst = order

/-- Two outcomes call for the items of the first and then of the second. -/
theorem Outcome.CallsFor.andThen {outcome : Outcome κ ν (Option α)}
    {next : α → Outcome κ ν (Option β)} {first second : List κ} (h : outcome.CallsFor first)
    (follows : ∀ value, (next value).CallsFor second)
    : (outcome.andThen none next).CallsFor (first ++ second) := by
  cases result : outcome.result with
  | none =>
      have calls := h.isPrefix.trans (List.prefix_append first second)
      exact ⟨by simpa [Outcome.andThen, result] using calls, by simp [Outcome.andThen, result]⟩
  | some value =>
      have calls := h.all (by simp [result])
      constructor
      · simpa [Outcome.andThen, result, calls] using (follows value).isPrefix
      · intro accepted
        simp only [Outcome.andThen, result] at accepted ⊢
        rw [List.map_append, calls, (follows value).all accepted]

/-- Evaluating expressions calls for the items of each in turn, by induction on the expressions. -/
theorem callsFor_evaluateAll {expressions : List (Expression algebra)}
    (each : ∀ expression ∈ expressions, expression.evaluate.CallsFor expression.completed)
    : (evaluateAll expressions).CallsFor (expressions.flatMap Expression.completed) := by
  induction expressions with
  | nil => exact ⟨List.prefix_rfl, fun _ => rfl⟩
  | cons expression expressions ih =>
      rw [evaluateAll_cons, List.flatMap_cons]
      have others := ih fun other mem => each other (List.mem_cons_of_mem _ mem)
      refine (each expression List.mem_cons_self).andThen fun value => ?_
      have collected := others.andThen fun values =>
        (⟨List.prefix_rfl, fun _ => rfl⟩ : (⟨[], some (value :: values)⟩ :
          Outcome κ ν (Option (List ν))).CallsFor [])
      rwa [List.append_nil] at collected

/-- Evaluating an expression calls for its items, each after its operands. By induction on the
expression.
-/
theorem Expression.callsFor (expression : Expression algebra)
    : expression.evaluate.CallsFor expression.completed := by
  induction expression using Expression.operands_induction with
  | node item operands ih =>
      rw [evaluate_node, completed_node]
      exact (callsFor_evaluateAll ih).andThen fun _ => ⟨List.prefix_rfl, fun _ => rfl⟩

-----------------------------------------------------------------------------------------
-- The fold is the reading
-----------------------------------------------------------------------------------------

/-- What a fold results in after an evaluation changes no call, and is no rejection by itself. -/
theorem Outcome.andThen_verdict (outcome : Outcome κ ν (Option α)) {verdict : α → Except Error ν}
    (accepting : ∀ value, verdict value ≠ .error .rejected)
    : (outcome.andThen (.error .rejected) fun value => ⟨[], verdict value⟩).assembled
        = outcome.assembled
      ∧ ((outcome.andThen (.error .rejected) fun value =>
            (⟨[], verdict value⟩ : Outcome κ ν (Except Error ν))).result = .error .rejected
          ↔ outcome.result = none) := by
  cases result : outcome.result with
  | none => simp [andThen, result]
  | some value => simp [andThen, result, accepting]

/-- The fold calls the assembly as the evaluation of the complete expressions does, and rejects
where that does.
-/
theorem Complete.fold {items : List κ} {expressions : List (Expression algebra)}
    (h : Complete algebra items expressions)
    : (algebra.fold items).assembled = (evaluateAll expressions).assembled
      ∧ ((algebra.fold items).result = .error .rejected
        ↔ (evaluateAll expressions).result = none) := by
  cases h with
  | whole expression rest =>
      rw [Algebra.fold_items_append, evaluateAll_singleton, Option.map_eq_none_iff]
      exact expression.evaluate.andThen_verdict fun value => by split <;> simp
  | unfinished pending =>
      cases pending with
      | nil => simp [Algebra.fold, evaluateAll, Outcome.inTurn]
      | cons unfinished pending =>
          rw [Algebra.fold_unfinished (List.cons_ne_nil unfinished pending)]
          exact Outcome.andThen_verdict _ fun _ => by simp

/-- What the reading says comes of a sequence is what the fold gives. -/
theorem Folded.fold_eq {items : List κ} {outcome : Outcome κ ν (Except Error ν)}
    (h : Folded algebra items outcome)
    : algebra.fold items = outcome := by
  cases h with
  | empty => rfl
  | whole expression accepted =>
      have folded := Algebra.fold_items_append expression []
      rw [List.append_nil, accepted] at folded
      simpa [Outcome.andThen] using folded
  | trailing expression accepted more =>
      rw [Algebra.fold_items_append, accepted]
      simp [Outcome.andThen, more]
  | incomplete begun accepted =>
      rw [Algebra.fold_unfinished begun, accepted]
      simp [Outcome.andThen]
  | @rejected _ expressions calls complete refused =>
      obtain ⟨assembled_eq, rejected_iff⟩ := complete.fold
      rw [refused] at assembled_eq rejected_iff
      have result_eq := rejected_iff.mpr rfl
      calc
        algebra.fold items
          = ⟨(algebra.fold items).assembled, (algebra.fold items).result⟩ := rfl
        _ = ⟨calls, .error .rejected⟩ := by rw [assembled_eq, result_eq]

/-- Every sequence has a reading, by how the reading ends and whether all in it is accepted. -/
theorem exists_folded (algebra : Algebra κ ν) (items : List κ)
    : ∃ outcome, Folded algebra items outcome := by
  obtain ⟨expressions, complete⟩ := exists_complete algebra items
  cases evaluated : evaluateAll expressions with
  | mk calls result =>
      cases result with
      | none => exact ⟨_, .rejected complete evaluated⟩
      | some values =>
          cases complete with
          | whole expression rest =>
              obtain ⟨value, accepted⟩ : ∃ value, expression.evaluate = ⟨calls, some value⟩ := by
                rw [evaluateAll_singleton] at evaluated
                obtain ⟨calls_eq, result_eq⟩ := Outcome.mk.inj evaluated
                obtain ⟨value, accepted, _⟩ := Option.map_eq_some_iff.mp result_eq
                exact ⟨value, by rw [← calls_eq, ← accepted]⟩
              by_cases more : rest = []
              · subst more
                rw [List.append_nil]
                exact ⟨_, .whole expression accepted⟩
              · exact ⟨_, .trailing expression accepted more⟩
          | unfinished pending =>
              by_cases begun : pending = []
              · subst begun
                exact ⟨_, .empty⟩
              · exact ⟨_, .incomplete begun evaluated⟩

/-- A sequence has a value exactly where it is one expression which is accepted. -/
theorem Algebra.value_eq_ok_iff {items : List κ} {value : ν}
    : algebra.value items = .ok value
      ↔ ∃ expression : Expression algebra,
          expression.items = items ∧ expression.evaluate.result = some value := by
  constructor
  · intro h
    obtain ⟨outcome, folded⟩ := exists_folded algebra items
    rw [Algebra.value, folded.fold_eq] at h
    cases folded with
    | whole expression accepted =>
        obtain rfl := Except.ok.inj h
        exact ⟨expression, rfl, by rw [accepted]⟩
    | empty | trailing | incomplete | rejected => cases h
  · intro h
    obtain ⟨expression, rfl, accepted⟩ := h
    have evaluated : expression.evaluate = ⟨expression.evaluate.assembled, some value⟩ := by
      rw [← accepted]
    rw [Algebra.value, (Folded.whole expression evaluated).fold_eq]

/-- The fold of any sequence, with any numbers of operands in either order and any assembly, comes
to what the recursive reading says. It calls the assembly once for each expression that is complete,
after its operands, with as many operands as the item takes, and stops where one is rejected.
-/
theorem fold_eq_iff_folded (items : List κ)
    : (∀ outcome, algebra.fold items = outcome ↔ Folded algebra items outcome)
      ∧ (∀ call ∈ (algebra.fold items).assembled, call.2.length = algebra.arity call.1)
      ∧ ∀ expressions, Complete algebra items expressions →
          (algebra.fold items).assembled.map Prod.fst
            <+: expressions.flatMap Expression.completed
          ∧ ((algebra.fold items).result ≠ .error .rejected →
              (algebra.fold items).assembled.map Prod.fst
                = expressions.flatMap Expression.completed) := by
  refine ⟨fun outcome => ⟨?_, Folded.fold_eq⟩, fun call => Algebra.length_of_mem_assembled, ?_⟩
  · intro folds
    obtain ⟨found, folded⟩ := exists_folded algebra items
    rwa [← folds, folded.fold_eq]
  · intro expressions complete
    have calls := callsFor_evaluateAll fun expression (_ : expression ∈ expressions) =>
      expression.callsFor
    obtain ⟨assembled_eq, rejected_iff⟩ := complete.fold
    rw [assembled_eq, Ne, rejected_iff]
    exact ⟨calls.isPrefix, calls.all⟩

end Munch.Polish
