import Mathlib.Tactic.Common
import Mathlib.Data.List.Forall2

/-! Outcomes of computations in steps. A computation succeeds exactly if each of its steps does, and
it fails with the cause of the first step that fails.
-/

namespace Munch

variable {ε ε' α β : Type}

/-- Two steps succeed if the first one does and then the second one. -/
theorem bind_eq_ok_iff {outcome : Except ε α} {next : α → Except ε β} {result : β}
    : outcome >>= next = .ok result ↔ ∃ value, outcome = .ok value ∧ next value = .ok result := by
  cases outcome with
  | error cause => simp [bind, Except.bind]
  | ok value => simp [bind, Except.bind]

/-- Two steps fail with the error of the first one, or with that of the second one behind a success.
-/
theorem bind_eq_error_iff {outcome : Except ε α} {next : α → Except ε β} {cause : ε}
    : outcome >>= next = .error cause
      ↔ outcome = .error cause ∨ ∃ value, outcome = .ok value ∧ next value = .error cause := by
  cases outcome with
  | error other => simp [bind, Except.bind]
  | ok value => simp [bind, Except.bind]

/-- A mapped outcome is a success if the outcome is. -/
theorem map_eq_ok_iff {outcome : Except ε α} {f : α → β} {result : β}
    : outcome.map f = .ok result ↔ ∃ value, outcome = .ok value ∧ f value = result := by
  cases outcome with
  | error cause => simp [Except.map]
  | ok value => simp [Except.map]

/-- Mapping results leaves errors as they are. -/
theorem map_eq_error_iff {outcome : Except ε α} {f : α → β} {cause : ε}
    : outcome.map f = .error cause ↔ outcome = .error cause := by
  cases outcome with
  | error other => simp [Except.map]
  | ok value => simp [Except.map]

/-- Mapping errors leaves results as they are. -/
theorem mapError_eq_ok_iff {outcome : Except ε α} {f : ε → ε'} {result : α}
    : outcome.mapError f = .ok result ↔ outcome = .ok result := by
  cases outcome with
  | error cause => simp [Except.mapError]
  | ok value => simp [Except.mapError]

/-- A mapped error comes from an error. -/
theorem mapError_eq_error_iff {outcome : Except ε α} {f : ε → ε'} {cause : ε'}
    : outcome.mapError f = .error cause ↔ ∃ other, outcome = .error other ∧ f other = cause := by
  cases outcome with
  | error other => simp [Except.mapError]
  | ok value => simp [Except.mapError]

/-- The error of two steps is mapped by mapping that of each step. -/
theorem mapError_bind {f : ε → ε'} {outcome : Except ε α} {next : α → Except ε β}
    : (outcome >>= next).mapError f
      = outcome.mapError f >>= fun value => (next value).mapError f := by
  cases outcome <;> rfl

/-- All steps over a list succeed in order, by induction on the list. -/
theorem mapM_eq_ok_iff {f : α → Except ε β} {items : List α} {results : List β}
    : items.mapM f = .ok results
      ↔ List.Forall₂ (fun item result => f item = .ok result) items results := by
  induction items generalizing results with
  | nil => simp [pure, Except.pure, eq_comm]
  | cons item items ih =>
      rw [List.mapM_cons, bind_eq_ok_iff, List.forall₂_cons_left_iff]
      constructor
      · intro h
        obtain ⟨result, first, h⟩ := h
        obtain ⟨more, others, last⟩ := bind_eq_ok_iff.mp h
        exact ⟨result, more, first, ih.mp others, (Except.ok.inj last).symm⟩
      · intro h
        obtain ⟨result, more, first, others, rfl⟩ := h
        exact ⟨result, first, bind_eq_ok_iff.mpr ⟨more, ih.mpr others, rfl⟩⟩

/-- The first step over a list that fails gives the cause, by induction on the list. -/
theorem mapM_eq_error_iff {f : α → Except ε β} {items : List α} {cause : ε}
    : items.mapM f = .error cause
      ↔ ∃ front item back,
          items = front ++ item :: back
          ∧ (∀ earlier ∈ front, ∃ result, f earlier = .ok result)
          ∧ f item = .error cause := by
  induction items with
  | nil => simp [pure, Except.pure]
  | cons first items ih =>
      rw [List.mapM_cons, bind_eq_error_iff]
      constructor
      · rintro (failed | ⟨result, found, failed⟩)
        · exact ⟨[], first, items, rfl, by simp, failed⟩
        · rcases bind_eq_error_iff.mp failed with later | ⟨_, _, impossible⟩
          · obtain ⟨front, item, back, rfl, earlier, failed⟩ := ih.mp later
            refine ⟨first :: front, item, back, rfl, ?_, failed⟩
            exact List.forall_mem_cons.mpr ⟨⟨result, found⟩, earlier⟩
          · cases impossible
      · rintro ⟨front, item, back, same, earlier, failed⟩
        cases front with
        | nil =>
            obtain ⟨rfl, rfl⟩ := List.cons.inj same
            exact Or.inl failed
        | cons other front =>
            obtain ⟨rfl, rfl⟩ := List.cons.inj same
            obtain ⟨⟨result, found⟩, others⟩ := List.forall_mem_cons.mp earlier
            have later := ih.mpr ⟨front, item, back, rfl, others, failed⟩
            exact Or.inr ⟨result, found, bind_eq_error_iff.mpr (Or.inl later)⟩

/-- Steps that are the same on every element are the same over a list, by induction on the list. -/
theorem mapM_congr_left {f g : α → Except ε β} {items : List α}
    (same : ∀ item ∈ items, f item = g item)
    : items.mapM f = items.mapM g := by
  have each : (items.map f).mapM id = (items.map g).mapM id :=
    congrArg (List.mapM id) (List.map_congr_left same)
  rwa [List.mapM_map, List.mapM_map] at each

/-- Causes may be changed step by step or at the end, by induction on the list. -/
theorem mapM_mapError {f : α → Except ε β} {g : ε → ε'} {items : List α}
    : items.mapM (fun item => (f item).mapError g) = (items.mapM f).mapError g := by
  induction items with
  | nil => rfl
  | cons item items ih =>
      simp only [List.mapM_cons, ih, mapError_bind]
      rfl

/-- Every item of the one list has a partner in the other, by induction on the two. -/
theorem exists_mem_of_forall₂ {related : α → β → Prop} {items : List α} {results : List β}
    {item : α} (h : List.Forall₂ related items results) (mem : item ∈ items)
    : ∃ result ∈ results, related item result := by
  induction h with
  | nil => cases mem
  | @cons first result _ _ here _ ih =>
      rcases List.mem_cons.mp mem with rfl | later
      · exact ⟨result, List.mem_cons_self, here⟩
      · obtain ⟨result, there, found⟩ := ih later
        exact ⟨result, List.mem_cons_of_mem _ there, found⟩

/-- Where there are elements there are their partners. -/
theorem ne_nil_of_forall₂ {related : α → β → Prop} {items : List α} {results : List β}
    (h : List.Forall₂ related items results) (some : items ≠ [])
    : results ≠ [] := by
  rintro rfl
  cases h
  exact some rfl

end Munch
