import Munch.Automaton.Transitions
import Munch.Proofs.DiscoveryOrder

/-! Merging transition relations. One transition is stored after the other, unless it is stored
already. What is stored once is never moved, so merging is a union that keeps the order of first
occurrences: in whatever groups relations are merged, the outcome is the same, and nothing changes
it that has been merged before.
-/

namespace Munch.Transitions

variable {σ : Type} [DecidableEq σ]

/-- Stores a transition behind all others, unless it is stored already. -/
def store (ts : Transitions σ) (t : Transition σ) : Transitions σ :=
  if t ∈ ts.toList then ts else ts.push t

/-- Stores one transition after the other. -/
def storeAll (ts : Transitions σ) (items : List (Transition σ)) : Transitions σ :=
  items.foldl store ts

variable {ts us : Transitions σ} {items : List (Transition σ)} {t u : Transition σ}

/-- A stored transition is not stored again. -/
theorem store_of_mem (mem : t ∈ ts) : ts.store t = ts :=
  if_pos mem

/-- Storing adds one transition at most. -/
theorem mem_store : u ∈ ts.store t ↔ u ∈ ts ∨ u = t := by
  unfold store
  split
  · rename_i known
    exact ⟨Or.inl, fun h => h.elim id fun same => same ▸ known⟩
  · exact List.mem_append.trans (or_congr Iff.rfl List.mem_singleton)

/-- Transitions in two stretches are stored one stretch after the other. -/
theorem storeAll_append (ts : Transitions σ) (items more : List (Transition σ))
    : ts.storeAll (items ++ more) = (ts.storeAll items).storeAll more :=
  List.foldl_append

/-- Storing adds all transitions of the list, by induction on it. -/
theorem mem_storeAll : t ∈ ts.storeAll items ↔ t ∈ ts ∨ t ∈ items := by
  induction items generalizing ts with
  | nil => simp [storeAll]
  | cons u items ih =>
      rw [storeAll, List.foldl_cons, ← storeAll, ih, mem_store, List.mem_cons, or_assoc]

/-- What is stored already changes nothing, by induction on the transitions. -/
theorem storeAll_of_subset (known : ∀ t ∈ items, t ∈ ts) : ts.storeAll items = ts := by
  induction items with
  | nil => rfl
  | cons t items ih =>
      obtain ⟨first, others⟩ := List.forall_mem_cons.mp known
      rw [storeAll, List.foldl_cons, store_of_mem first]
      exact ih others

/-- To store all of a relation with one more transition is to store that transition last. -/
theorem storeAll_store (ts us : Transitions σ) (t : Transition σ)
    : ts.storeAll (us.store t).toList = (ts.storeAll us.toList).store t := by
  by_cases known : t ∈ us
  · rw [store_of_mem known, store_of_mem (mem_storeAll.mpr (Or.inr known))]
  · have appended : (us.store t).toList = us.toList ++ [t] :=
      congrArg toList (if_neg known)
    rw [appended, storeAll_append]
    rfl

/-- It makes no difference to store transitions elsewhere before, by induction on them. -/
theorem storeAll_storeAll (ts us : Transitions σ) (items : List (Transition σ))
    : ts.storeAll (us.storeAll items).toList = (ts.storeAll us.toList).storeAll items := by
  induction items generalizing us with
  | nil => rfl
  | cons t items ih =>
      have first := ih (us.store t)
      rw [storeAll_store] at first
      exact first

-----------------------------------------------------------------------------------------
-- Merging
-----------------------------------------------------------------------------------------

/-- Storing drops what has occurred before, by induction from the end of the transitions. -/
theorem toList_storeAll (items : List (Transition σ))
    : ((∅ : Transitions σ).storeAll items).toList = items.eraseDups := by
  induction items using List.reverseRecOn with
  | nil => rfl
  | append_singleton items last ih =>
      have stored : last ∈ ((∅ : Transitions σ).storeAll items).toList ↔ last ∈ items := by
        rw [ih, List.mem_eraseDups]
      rw [storeAll_append, eraseDups_concat, ← ih]
      simp only [storeAll, List.foldl_cons, List.foldl_nil, store, ← stored]
      split <;> rfl

/-- Merging is storing all transitions of the one relation and then those of the other, with nothing
stored before.
-/
theorem merge_eq_storeAll (ts us : Transitions σ)
    : ts.merge us = (∅ : Transitions σ).storeAll (ts.toList ++ us.toList) :=
  congrArg mk (toList_storeAll _).symm

/-- What is merged already may be merged further. -/
theorem merge_merge (ts us vs : Transitions σ)
    : (ts.merge us).merge vs = (ts.merge us).storeAll vs.toList := by
  rw [merge_eq_storeAll _ vs, storeAll_append, merge_eq_storeAll ts us, storeAll_storeAll]
  rfl

/-- Three relations are merged in two ways with one result, storage order included. -/
theorem merge_assoc (ts us vs : Transitions σ)
    : (ts.merge us).merge vs = ts.merge (us.merge vs) := by
  have left : (ts.merge us).merge vs
      = ((∅ : Transitions σ).storeAll ts.toList).storeAll (us.toList ++ vs.toList) := by
    rw [merge_merge, merge_eq_storeAll, storeAll_append, storeAll_append]
  have right : ts.merge (us.merge vs)
      = ((∅ : Transitions σ).storeAll ts.toList).storeAll (us.toList ++ vs.toList) := by
    rw [merge_eq_storeAll, storeAll_append, merge_eq_storeAll us vs, storeAll_storeAll]
    rfl
  rw [left, right]

/-- What belongs to a merged relation is merged into it without effect. -/
theorem merge_of_subset {vs : Transitions σ} (known : ∀ t ∈ vs, t ∈ ts.merge us)
    : (ts.merge us).merge vs = ts.merge us := by
  rw [merge_merge]
  exact storeAll_of_subset known

/-- The transitions are stored one after the other. Stored are exactly those of either relation,
each once, in the order in which they occur first in the one relation and then the other. Merging is
associative, and it takes nothing that has been merged already.
-/
theorem merge_exact (ts us vs : Transitions σ)
    : ts.merge us = us.toList.foldl store (ts.toList.foldl store ∅)
      ∧ (∀ items,
          items = (ts.merge us).toList
          ↔ (∀ t, t ∈ items ↔ t ∈ ts ∨ t ∈ us)
            ∧ items.Nodup
            ∧ items.Pairwise (Precedes (ts.toList ++ us.toList)))
      ∧ (ts.merge us).merge vs = ts.merge (us.merge vs)
      ∧ (ts.merge us).merge ts = ts.merge us
      ∧ (ts.merge us).merge us = ts.merge us
      ∧ (ts.merge us).merge (ts.merge us) = ts.merge us := by
  refine ⟨?_, fun items => ?_, merge_assoc ts us vs, ?_, ?_, ?_⟩
  · rw [merge_eq_storeAll, storeAll_append]
    rfl
  · rw [merge, eq_eraseDups_iff]
    simp only [List.mem_append, mem_toList]
  · exact merge_of_subset fun t mem => mem_merge.mpr (Or.inl mem)
  · exact merge_of_subset fun t mem => mem_merge.mpr (Or.inr mem)
  · exact merge_of_subset fun t mem => mem

end Munch.Transitions
