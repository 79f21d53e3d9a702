import Mathlib.Tactic.Common
import Mathlib.Data.List.Induction
import Mathlib.Data.List.Perm.Basic
import Munch.Discovery

/-! The order of breadth-first discovery. What is discovered are the roots and then the successors
of everything discovered, in this order and each element once. So of two elements the one that
occurs there first is discovered first.
-/

namespace Munch

variable {α : Type}

-----------------------------------------------------------------------------------------
-- The order of first occurrences
-----------------------------------------------------------------------------------------

/-- Before every place at which the second element stands in the list, the first one stands too. -/
def Precedes (items : List α) (a b : α) : Prop :=
  ∀ front back, items = front ++ b :: back → a ∈ front

/-- An element of a list with one more at its end is that one, or it stands before. -/
theorem eq_or_mem_of_concat {items front back : List α} {last b : α}
    (parted : items ++ [last] = front ++ b :: back)
    : front = items ∧ b = last ∨ ∃ more, items = front ++ b :: more := by
  rcases List.eq_nil_or_concat back with rfl | ⟨more, final, rfl⟩
  · obtain ⟨rfl, same⟩ := List.append_inj' parted rfl
    exact Or.inl ⟨rfl, (List.singleton_inj.mp same).symm⟩
  · rw [List.concat_eq_append, ← List.cons_append, ← List.append_assoc] at parted
    exact Or.inr ⟨more, (List.append_inj' parted rfl).1⟩

/-- What precedes another element in a list does so with one more element at the end. -/
theorem Precedes.concat {items : List α} {a b : α} (h : Precedes items a b) (mem : a ∈ items)
    (last : α)
    : Precedes (items ++ [last]) a b := by
  intro front back parted
  rcases eq_or_mem_of_concat parted with ⟨rfl, _⟩ | ⟨more, earlier⟩
  · exact mem
  · exact h front more earlier

/-- A new element comes behind all that were there. -/
theorem precedes_concat {items : List α} {a b : α} (mem : a ∈ items) (new : b ∉ items)
    : Precedes (items ++ [b]) a b := by
  intro front back parted
  rcases eq_or_mem_of_concat parted with ⟨rfl, _⟩ | ⟨more, rfl⟩
  · exact mem
  · exact absurd (by simp) new

/-- Of two elements of the list, only one can come first. -/
theorem Precedes.asymm {items : List α} {a b : α} (h : Precedes items a b) (mem : b ∈ items)
    : ¬Precedes items b a := by
  intro back
  obtain ⟨front, rest, rfl, first⟩ := List.eq_append_cons_of_mem mem
  obtain ⟨before, behind, rfl⟩ := List.append_of_mem (h front rest rfl)
  have earlier : b ∈ before := back before (behind ++ b :: rest) (by simp)
  exact first (List.mem_append_left _ earlier)

variable [DecidableEq α]

/-- One more element at the end of a list is kept if it is new there. -/
theorem eraseDups_concat (items : List α) (a : α)
    : (items ++ [a]).eraseDups
      = if a ∈ items then items.eraseDups else items.eraseDups ++ [a] := by
  rw [List.eraseDups_append, List.removeAll]
  split <;> simp_all [List.eraseDups_cons]

/-- Elements that are kept once stand in the order in which they occur first, by induction from the
end of the list.
-/
theorem pairwise_precedes_eraseDups (items : List α)
    : items.eraseDups.Pairwise (Precedes items) := by
  induction items using List.reverseRecOn with
  | nil => simp
  | append_singleton items last ih =>
      have kept : items.eraseDups.Pairwise (Precedes (items ++ [last])) :=
        ih.imp_of_mem fun mem _ h => h.concat (List.mem_eraseDups.mp mem) last
      rw [eraseDups_concat]
      split
      · exact kept
      · rename_i new
        refine List.pairwise_append.mpr ⟨kept, List.pairwise_singleton _ _, ?_⟩
        intro a mem b same
        obtain rfl := List.mem_singleton.mp same
        exact precedes_concat (List.mem_eraseDups.mp mem) new

/-- Nothing else than the elements, each once and in the order in which they occur first, is left
when what has occurred before is dropped.
-/
theorem eq_eraseDups_iff {items kept : List α}
    : kept = items.eraseDups
      ↔ (∀ a, a ∈ kept ↔ a ∈ items) ∧ kept.Nodup ∧ kept.Pairwise (Precedes items) := by
  constructor
  · intro same
    rw [same]
    exact ⟨fun a => List.mem_eraseDups, nodup_eraseDups items, pairwise_precedes_eraseDups items⟩
  · intro h
    obtain ⟨mem, nodup, ordered⟩ := h
    have perm : kept.Perm items.eraseDups := by
      rw [List.perm_ext_iff_of_nodup nodup (nodup_eraseDups items)]
      exact fun a => (mem a).trans List.mem_eraseDups.symm
    refine perm.eq_of_pairwise (fun a b _ inItems h h' => ?_) ordered
      (pairwise_precedes_eraseDups items)
    exact absurd h' (h.asymm (List.mem_eraseDups.mp inItems))

-----------------------------------------------------------------------------------------
-- The order of discovery
-----------------------------------------------------------------------------------------

variable {next : α → List α} {finite : FinitelyBranching next}

/-- What is known at any time are the roots and the successors of what has been explored, each once:
exploring one more element puts its newcomers behind both.
-/
theorem explore_eq_eraseDups {roots explored pending : List α}
    (known : explored ++ pending = (roots ++ explored.flatMap next).eraseDups)
    : explore next finite explored pending
      = (roots ++ (explore next finite explored pending).flatMap next).eraseDups := by
  fun_induction explore next finite explored pending with
  | case1 explored => simpa using known
  | case2 explored a rest ih =>
      refine ih ?_
      have same (b : α) : b ∈ explored ++ a :: rest ↔ b ∈ roots ++ explored.flatMap next := by
        rw [known, List.mem_eraseDups]
      have fresh : newcomers next (explored ++ a :: rest) a
          = ((next a).removeAll (roots ++ explored.flatMap next)).eraseDups := by
        simp only [newcomers, same, List.removeAll, decide_not, List.elem_eq_contains,
          List.contains_eq_mem]
      calc explored ++ [a] ++ (rest ++ newcomers next (explored ++ a :: rest) a)
        _ = (explored ++ a :: rest) ++ newcomers next (explored ++ a :: rest) a := by simp
        _ = (roots ++ explored.flatMap next).eraseDups
              ++ ((next a).removeAll (roots ++ explored.flatMap next)).eraseDups := by
          rw [fresh, known]
        _ = (roots ++ (explored ++ [a]).flatMap next).eraseDups := by
          rw [← List.eraseDups_append]
          simp

/-- What is discovered are the roots and the successors of everything discovered, each once. -/
theorem discover_eq_eraseDups (roots : List α)
    : discover next finite roots
      = (roots ++ (discover next finite roots).flatMap next).eraseDups :=
  explore_eq_eraseDups (by simp)

/-- What is discovered earlier occurs earlier among the roots and the successors of everything
discovered.
-/
theorem pairwise_precedes_discover (roots : List α)
    : (discover next finite roots).Pairwise
        (Precedes (roots ++ (discover next finite roots).flatMap next)) := by
  conv_rhs => rw [discover_eq_eraseDups]
  exact pairwise_precedes_eraseDups _

end Munch
