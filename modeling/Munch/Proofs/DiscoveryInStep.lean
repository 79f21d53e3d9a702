import Mathlib.Data.List.Forall2
import Munch.Discovery

/-! Two discoveries in step. Where elements of two kinds are partners one to one, and partners have
partners as their successors in the same order, the two discoveries find partners at the same
places. So a discovery does not depend on what its elements are, but only on which of them are the
same.
-/

namespace Munch

open List (Forall₂)

variable {α β : Type} {R : α → β → Prop}

-----------------------------------------------------------------------------------------
-- Places
-----------------------------------------------------------------------------------------

/-- Lists of partners, with their places, give the same where each two partners do, by induction on
the lists.
-/
theorem flatMap_zipIdx_eq_of_forall₂ {γ : Type} {items : List α} {others : List β}
    {f : α × Nat → List γ} {g : β × Nat → List γ} (partners : Forall₂ R items others)
    (same : ∀ a b i, R a b → f (a, i) = g (b, i)) (start : Nat)
    : (items.zipIdx start).flatMap f = (others.zipIdx start).flatMap g := by
  induction partners generalizing start with
  | nil => rfl
  | cons first _ ih =>
      rw [List.zipIdx_cons, List.zipIdx_cons, List.flatMap_cons, List.flatMap_cons,
        same _ _ _ first, ih]

/-- Partners stand at the same places, by induction on the lists. -/
theorem exists_getElem?_of_forall₂ {items : List α} {others : List β} {i : Nat} {a : α}
    (partners : Forall₂ R items others) (here : items[i]? = some a)
    : ∃ b, others[i]? = some b ∧ R a b := by
  induction partners generalizing i with
  | nil => simp at here
  | @cons first second _ _ related _ ih =>
      cases i with
      | zero =>
          obtain rfl : first = a := by simpa using here
          exact ⟨second, by simp, related⟩
      | succ i =>
          obtain ⟨b, there, related⟩ := ih (by simpa using here)
          exact ⟨b, by simpa using there, related⟩

variable [DecidableEq α] [DecidableEq β] (oneToOne : Relator.BiUnique R)

include oneToOne

/-- A list has an element first where the other has its partner first, by induction on the lists. -/
theorem idxOf_eq_of_forall₂ {items : List α} {others : List β} {a : α} {b : β}
    (partners : Forall₂ R items others) (related : R a b)
    : items.idxOf a = others.idxOf b := by
  induction partners with
  | nil => rfl
  | cons first _ ih =>
      simp only [List.idxOf_cons, beq_eq_decide, Relator.rel_eq oneToOne first related, ih]

-----------------------------------------------------------------------------------------
-- Discovery
-----------------------------------------------------------------------------------------

/-- Of partners the same ones are kept once. -/
theorem forall₂_eraseDups {items : List α} {others : List β} (partners : Forall₂ R items others)
    : Forall₂ R items.eraseDups others.eraseDups := by
  match partners with
  | .nil => exact .nil
  | .cons first more =>
      rw [List.eraseDups_cons, List.eraseDups_cons]
      refine .cons first (forall₂_eraseDups (List.rel_filter ?_ more))
      intro a b related
      simp [Relator.rel_eq oneToOne related first]
  termination_by items.length
  decreasing_by
    simp only [List.length_cons]
    exact Nat.lt_succ_of_le (List.length_filter_le ..)

variable {next : α → List α} {next' : β → List β} {finite : FinitelyBranching next}
  {finite' : FinitelyBranching next'}
  (inStep : ∀ a b, R a b → Forall₂ R (next a) (next' b))

include inStep

/-- Partners have partners as their newcomers, because partners have partners as successors and only
partners of what is known are known.
-/
theorem forall₂_newcomers {known : List α} {known' : List β} {a : α} {b : β}
    (partners : Forall₂ R known known') (related : R a b)
    : Forall₂ R (newcomers next known a) (newcomers next' known' b) := by
  refine forall₂_eraseDups oneToOne (List.rel_filter ?_ (inStep a b related))
  intro c d related'
  simp [List.rel_mem oneToOne related' partners]

/-- What is explored stays in step, by induction on the exploration. -/
theorem forall₂_explore {explored pending : List α} {explored' pending' : List β}
    (done : Forall₂ R explored explored') (waiting : Forall₂ R pending pending')
    : Forall₂ R (explore next finite explored pending)
        (explore next' finite' explored' pending') := by
  fun_induction explore next finite explored pending generalizing explored' pending' with
  | case1 explored =>
      cases waiting
      rwa [explore]
  | case2 explored a rest ih =>
      cases waiting with
      | @cons _ b _ rest' related waiting =>
          rw [explore]
          have known := List.rel_append done (.cons related waiting)
          have fresh := forall₂_newcomers oneToOne inStep known related
          exact ih (List.rel_append done (.cons related .nil)) (List.rel_append waiting fresh)

/-- Discoveries from partners find partners at the same places. -/
theorem forall₂_discover {roots : List α} {roots' : List β} (partners : Forall₂ R roots roots')
    : Forall₂ R (discover next finite roots) (discover next' finite' roots') :=
  forall₂_explore oneToOne inStep .nil (forall₂_eraseDups oneToOne partners)

end Munch
