/-! Polish notation: sequences in which every item comes before its operands, folded bottom-up into
one value with a single stack of items that still lack operands. What an item needs and what it
makes of its operands is a parameter. Two laws of the fold are here: each call of the assembly gets
as many operands as the item takes (`length_of_mem_assembled`), and only a sequence without items is
called empty (`result_eq_empty_iff`). Memory is not modelled: a program may set room aside for as
many operands as an item takes, and then fail on a number that is far too large.
-/

namespace Munch.Polish

/-- In which order the operands of an item come after it. -/
inductive OperandOrder where
  | leftToRight
  /-- The order of a reversed postfix sequence. -/
  | rightToLeft
  deriving DecidableEq

/-- How items are folded: the number of operands that each takes, their order, and the value
that it makes of them, if it accepts them.
-/
structure Algebra (κ ν : Type) where
  arity : κ → Nat
  order : OperandOrder
  assemble : κ → List ν → Option ν

/-- Why a sequence is not exactly one expression. -/
inductive Error where
  /-- There are no items. -/
  | empty
  /-- The items end while some still lack operands. -/
  | incomplete (pending : Nat)
  /-- Items follow a complete expression. -/
  | trailing (remaining : Nat)
  /-- An item does not accept its operands. -/
  | rejected
  deriving DecidableEq

/-- What the error says to a user. -/
def Error.message : Error → String
  | .empty => "nothing to reduce"
  | .incomplete pending =>
      "input ended while " ++ toString pending ++ " operator(s) still expected operands"
  | .trailing remaining =>
      toString remaining ++ " item(s) left over after the expression was complete"
  | .rejected => "operator could not be assembled from its operands"

/-- An item that lacks operands, with those that are complete, the latest first. -/
structure Pending (κ ν : Type) where
  item : κ
  operands : List ν

/-- What is left to do once an item has been taken in. -/
inductive Progress (κ ν : Type) where
  /-- Items wait for operands, the innermost one first. -/
  | waiting (stack : List (Pending κ ν))
  /-- The whole expression is complete. -/
  | finished (value : ν)
  | rejected

/-- The items handed to the assembly with their operands, in order, and what came of the fold. -/
structure Outcome (κ ν α : Type) where
  assembled : List (κ × List ν)
  result : α

namespace Algebra

variable {κ ν : Type} (algebra : Algebra κ ν)

/-- The operands in reading order, from those collected with the latest first. -/
def arrange (operands : List ν) : List ν :=
  match algebra.order with
  | .leftToRight => operands.reverse
  | .rightToLeft => operands

/-- Assembles the topmost item if it has its operands, and hands its value to the item below,
which may be complete in turn.
-/
def settle (item : κ) (operands : List ν) (below : List (Pending κ ν))
    : Outcome κ ν (Progress κ ν) :=
  if operands.length < algebra.arity item then ⟨[], .waiting (⟨item, operands⟩ :: below)⟩
  else
    let call := (item, algebra.arrange operands)
    match algebra.assemble call.1 call.2 with
    | none => ⟨[call], .rejected⟩
    | some value =>
        match below with
        | [] => ⟨[call], .finished value⟩
        | parent :: below =>
            let outcome := settle parent.item (value :: parent.operands) below
            ⟨call :: outcome.assembled, outcome.result⟩

/-- Takes the items in one after the other. -/
def takeIn : List κ → List (Pending κ ν) → Outcome κ ν (Except Error ν)
  | [], stack => ⟨[], .error (.incomplete stack.length)⟩
  | item :: items, stack =>
      let settled := algebra.settle item [] stack
      match settled.result with
      | .rejected => ⟨settled.assembled, .error .rejected⟩
      | .finished value =>
          let result := if items.isEmpty then .ok value else .error (.trailing items.length)
          ⟨settled.assembled, result⟩
      | .waiting stack =>
          let outcome := takeIn items stack
          ⟨settled.assembled ++ outcome.assembled, outcome.result⟩

/-- Folds a sequence of items in Polish notation into the value of the expression. -/
def fold (items : List κ) : Outcome κ ν (Except Error ν) :=
  if items.isEmpty then ⟨[], .error .empty⟩ else algebra.takeIn items []

/-- The value of a sequence in Polish notation. -/
def value (items : List κ) : Except Error ν :=
  (algebra.fold items).result

variable {algebra}

/-- The stack holds items that all lack operands. -/
def Lacking (algebra : Algebra κ ν) (stack : List (Pending κ ν)) : Prop :=
  ∀ pending ∈ stack, pending.operands.length < algebra.arity pending.item

/-- Putting operands in reading order changes nothing about their number. -/
theorem length_arrange (operands : List ν)
    : (algebra.arrange operands).length = operands.length := by
  unfold arrange
  split <;> simp

/-- Settling hands each item as many operands as it takes, and the items that wait afterwards all
lack operands. By induction on the items below.
-/
theorem length_of_mem_settle {item : κ} {operands : List ν} {below : List (Pending κ ν)}
    (atMost : operands.length ≤ algebra.arity item) (lacking : algebra.Lacking below)
    : (∀ call ∈ (algebra.settle item operands below).assembled,
        call.2.length = algebra.arity call.1)
      ∧ ∀ stack, (algebra.settle item operands below).result = .waiting stack
        → algebra.Lacking stack := by
  induction below generalizing item operands with
  | nil =>
      unfold settle
      split
      · simp_all [Lacking]
      · dsimp only
        split
        · simp [length_arrange]; omega
        · simp [length_arrange]; omega
  | cons parent below ih =>
      unfold settle
      split
      · simp_all [Lacking]
      · dsimp only
        split
        · simp [length_arrange]; omega
        · rename_i value _
          have parentLacks := lacking parent (by simp)
          have := @ih parent.item (value :: parent.operands)
            (by simp only [List.length_cons]; omega)
            fun pending mem => lacking pending (by simp [mem])
          refine ⟨fun call mem => ?_, this.2⟩
          rcases List.mem_cons.mp mem with rfl | mem
          · simp [length_arrange]; omega
          · exact this.1 call mem

/-- Every call of the assembly gets exactly as many operands as its item takes. -/
theorem length_of_mem_assembled {items : List κ} {call : κ × List ν}
    (h : call ∈ (algebra.fold items).assembled)
    : call.2.length = algebra.arity call.1 := by
  have takeIn (items : List κ) (stack : List (Pending κ ν)) (lacking : algebra.Lacking stack)
      : ∀ call ∈ (algebra.takeIn items stack).assembled, call.2.length = algebra.arity call.1 := by
    induction items generalizing stack with
    | nil => simp [Algebra.takeIn]
    | cons item items ih =>
        have settled := @length_of_mem_settle _ _ _ item [] stack (by simp) lacking
        unfold Algebra.takeIn
        dsimp only
        split
        · exact settled.1
        · exact settled.1
        · rename_i waits
          intro call mem
          rcases List.mem_append.mp mem with mem | mem
          · exact settled.1 call mem
          · exact ih _ (settled.2 _ waits) call mem
  unfold fold at h
  split at h
  · simp at h
  · exact takeIn items [] (by simp [Lacking]) call h

/-- Taking items in never says that there are none, by induction on the items. -/
theorem takeIn_ne_empty (items : List κ) (stack : List (Pending κ ν))
    : (algebra.takeIn items stack).result ≠ .error .empty := by
  induction items generalizing stack with
  | nil => simp [takeIn]
  | cons item items ih =>
      unfold takeIn
      dsimp only
      split
      · simp
      · dsimp only
        split <;> simp
      · exact ih _

/-- Only a sequence without items is called empty. -/
theorem result_eq_empty_iff {items : List κ}
    : algebra.value items = .error .empty ↔ items = [] := by
  cases items with
  | nil => simp [value, fold]
  | cons item items => simpa [value, fold] using takeIn_ne_empty _ _

end Algebra

end Munch.Polish
