import Mathlib.Logic.Function.Iterate
import Munch.Proofs.SinkStates
import Munch.Proofs.SubsetRuns

/-! Closures under silent transitions by a depth-first traversal. A state waits on a stack from the
moment it is visited until it is expanded, and it is visited only once. So the loop expands each
state that can be reached exactly once, whatever cycles and repetitions there are among the
transitions, and what it has visited then is the closure.
-/

namespace Munch

namespace SortedSet

variable {α : Type} [Ranked α]

/-- A new member makes a set longer by one. -/
theorem length_insert {a : α} {s : SortedSet α} (new : a ∉ s)
    : (s.insert a).toList.length = s.toList.length + 1 := by
  have members : (s.insert a).toList.Perm (a :: s.toList) := by
    refine (List.perm_ext_iff_of_nodup (s.insert a).nodup_toList ?_).mpr fun b => ?_
    · exact List.nodup_cons.mpr ⟨new, s.nodup_toList⟩
    · rw [mem_toList, mem_insert, List.mem_cons, mem_toList]
  exact members.length_eq

/-- A set has at most as many members as one that holds all of them. -/
theorem length_le_of_subset {s t : SortedSet α} (sub : ∀ a ∈ s, a ∈ t)
    : s.toList.length ≤ t.toList.length :=
  (s.ascending.sublist_of_subset t.ascending sub).length_le

end SortedSet

/-- A depth-first traversal at work. -/
@[ext]
structure Traversal where
  visited : StateSet
  /-- The states that have to be expanded, the next one first. -/
  stack : List State

namespace Traversal

/-- A state that has not been visited yet is visited, and is the next one to be expanded. -/
def visit (work : Traversal) (q : State) : Traversal :=
  if q ∈ work.visited then work
  else { visited := work.visited.insert q, stack := q :: work.stack }

/-- One iteration of the loop: the state on top leaves the stack, and all its successors are
visited. On an empty stack the loop is over.
-/
def iterate (next : State → List State) (work : Traversal) : Traversal :=
  match work.stack with
  | [] => work
  | q :: stack => (next q).foldl visit { work with stack }

/-- The traversal that has just begun. -/
def start (root : State) : Traversal where
  visited := {root}
  stack := [root]

/-- After the given number of iterations, and not before, nothing is left to expand. -/
def EndsAfter (next : State → List State) (count : Nat) (work last : Traversal) : Prop :=
  (∀ n < count, ((iterate next)^[n] work).stack ≠ [])
  ∧ (iterate next)^[count] work = last
  ∧ last.stack = []

variable {next : State → List State} {work : Traversal} {items : List State} {root q r : State}

-----------------------------------------------------------------------------------------
-- Visiting states
-----------------------------------------------------------------------------------------

/-- Visiting a state adds it to the visited ones and nothing else. -/
theorem mem_visited_visit : r ∈ (work.visit q).visited ↔ r ∈ work.visited ∨ r = q := by
  unfold visit
  split
  · rename_i known
    exact ⟨Or.inl, fun h => h.elim id fun same => same ▸ known⟩
  · rw [SortedSet.mem_insert, or_comm]

/-- A state comes on the stack when it is visited for the first time. -/
theorem mem_stack_visit
    : r ∈ (work.visit q).stack ↔ r ∈ work.stack ∨ r = q ∧ r ∉ work.visited := by
  unfold visit
  split
  · grind
  · simp only [List.mem_cons]
    grind

/-- Whatever is visited has to be expanded. -/
theorem length_visit
    : (work.visit q).visited.toList.length + work.stack.length
      = work.visited.toList.length + (work.visit q).stack.length := by
  unfold visit
  split
  · rfl
  · rename_i new
    rw [SortedSet.length_insert new, List.length_cons]
    omega

/-- Visiting some states in turn adds all of them, by induction on their list. -/
theorem mem_visited_foldl
    : r ∈ (items.foldl visit work).visited ↔ r ∈ work.visited ∨ r ∈ items := by
  induction items generalizing work with
  | nil => simp
  | cons q items ih => rw [List.foldl_cons, ih, mem_visited_visit, List.mem_cons, or_assoc]

/-- Of the states visited in turn those come on the stack that have not been visited before, each at
its first visit.
-/
theorem mem_stack_foldl
    : r ∈ (items.foldl visit work).stack
      ↔ r ∈ work.stack ∨ r ∈ items ∧ r ∉ work.visited := by
  induction items generalizing work with
  | nil => simp
  | cons q items ih =>
      rw [List.foldl_cons, ih, mem_stack_visit, mem_visited_visit, List.mem_cons]
      grind

/-- As many states come on the stack as are visited for the first time, by induction on their list.
-/
theorem length_foldl
    : (items.foldl visit work).visited.toList.length + work.stack.length
      = work.visited.toList.length + (items.foldl visit work).stack.length := by
  induction items generalizing work with
  | nil => rfl
  | cons q items ih =>
      have first := @length_visit work q
      have others := @ih (work.visit q)
      rw [List.foldl_cons]
      omega

-----------------------------------------------------------------------------------------
-- The loop
-----------------------------------------------------------------------------------------

/-- The successors of a visited state are visited too, unless it still has to be expanded. -/
def Sound (next : State → List State) (work : Traversal) : Prop :=
  ∀ q ∈ work.visited, q ∈ work.stack ∨ ∀ r ∈ next q, r ∈ work.visited

/-- The state is visited, or it is reached by one step or more from one that has to be expanded. -/
def Due (next : State → List State) (work : Traversal) (r : State) : Prop :=
  r ∈ work.visited ∨ ∃ p ∈ work.stack, ∃ q ∈ next p, Reaches next q r

/-- What a visited state reaches is due: the way there is visited as far as its states have been
expanded, by induction on the way.
-/
theorem Sound.due (sound : work.Sound next) (known : q ∈ work.visited) (way : Reaches next q r)
    : work.Due next r := by
  induction way with
  | refl q => exact Or.inl known
  | @step p q r first rest ih =>
      rcases sound p known with waits | closed
      · exact Or.inr ⟨p, waits, q, first, rest⟩
      · exact ih (closed q first)

/-- Expanding a state of a sound traversal leaves it sound. -/
theorem Sound.iterate (sound : work.Sound next) : (work.iterate next).Sound next := by
  obtain ⟨visited, stack⟩ := work
  cases stack with
  | nil => exact sound
  | cons p stack =>
      intro q mem
      by_cases old : q ∈ visited
      · rcases sound q old with waits | closed
        · rcases List.mem_cons.mp waits with rfl | waits
          · exact Or.inr fun r step => mem_visited_foldl.mpr (Or.inr step)
          · exact Or.inl (mem_stack_foldl.mpr (Or.inl waits))
        · exact Or.inr fun r step => mem_visited_foldl.mpr (Or.inl (closed r step))
      · have new : q ∈ next p := (mem_visited_foldl.mp mem).resolve_left old
        exact Or.inl (mem_stack_foldl.mpr (Or.inr ⟨new, old⟩))

/-- Expanding a state changes nothing about what is due, for the state goes and its successors
come.
-/
theorem Sound.due_iterate (sound : work.Sound next)
    : (work.iterate next).Due next r ↔ work.Due next r := by
  have after := sound.iterate
  obtain ⟨visited, stack⟩ := work
  cases stack with
  | nil => exact Iff.rfl
  | cons p stack =>
      constructor
      · rintro (known | ⟨q, waits, s, first, way⟩)
        · rcases mem_visited_foldl.mp known with old | new
          · exact Or.inl old
          · exact Or.inr ⟨p, List.mem_cons_self, r, new, .refl r⟩
        · rcases mem_stack_foldl.mp waits with old | ⟨new, _⟩
          · exact Or.inr ⟨q, List.mem_cons_of_mem p old, s, first, way⟩
          · exact Or.inr ⟨p, List.mem_cons_self, q, new, .step first way⟩
      · rintro (known | ⟨q, waits, s, first, way⟩)
        · exact Or.inl (mem_visited_foldl.mpr (Or.inl known))
        · rcases List.mem_cons.mp waits with rfl | waits
          · exact after.due (mem_visited_foldl.mpr (Or.inr first)) way
          · exact Or.inr ⟨q, mem_stack_foldl.mpr (Or.inl waits), s, first, way⟩

/-- What holds after a number of iterations: the traversal is sound, the same states are due as at
the beginning, and each iteration has taken one state from the stack, on which every state came that
has been visited since.
-/
structure Invariant (next : State → List State) (count : Nat) (work first : Traversal) : Prop where
  sound : work.Sound next
  due_iff : ∀ r, work.Due next r ↔ first.Due next r
  length_eq
    : work.visited.toList.length + first.stack.length
      = first.visited.toList.length + count + work.stack.length

variable {first : Traversal} {count : Nat}

/-- An iteration keeps the invariant, and it has taken one more state from the stack. -/
theorem Invariant.iterate (h : work.Invariant next count first) (more : work.stack ≠ [])
    : (work.iterate next).Invariant next (count + 1) first where
  sound := h.sound.iterate
  due_iff := fun r => h.sound.due_iterate.trans (h.due_iff r)
  length_eq := by
    have before := h.length_eq
    obtain ⟨visited, stack⟩ := work
    cases stack with
    | nil => exact absurd rfl more
    | cons q stack =>
        have balance := @length_foldl { visited, stack } (next q)
        simp only [Traversal.iterate, List.length_cons] at before balance ⊢
        omega

/-- With nothing left to expand, a state is visited if it was due at the beginning. -/
theorem Invariant.mem_visited (h : work.Invariant next count first) (empty : work.stack = [])
    : r ∈ work.visited ↔ first.Due next r := by
  rw [← h.due_iff, Due, empty]
  simp

section

variable {all : StateSet} (sound : first.Sound next) (mem_all : ∀ r, r ∈ all ↔ first.Due next r)
  (total
    : first.visited.toList.length + count = all.toList.length + first.stack.length)

include mem_all

/-- Once nothing is left to expand, exactly what was due at the beginning has been visited. -/
theorem Invariant.visited_eq {n : Nat} (h : work.Invariant next n first)
    (empty : work.stack = [])
    : work.visited = all := by
  ext r
  rw [h.mem_visited empty, mem_all]

/-- Never is more visited than was due at the beginning. -/
theorem Invariant.length_le {n : Nat} (h : work.Invariant next n first)
    : work.visited.toList.length ≤ all.toList.length :=
  SortedSet.length_le_of_subset fun r known =>
    (mem_all r).mpr ((h.due_iff r).mp (Or.inl known))

include total

/-- As long as there have been fewer iterations than there are to be, there is one more state to
expand.
-/
theorem Invariant.stack_ne_nil {n : Nat} (h : work.Invariant next n first) (fewer : n < count)
    : work.stack ≠ [] := by
  intro empty
  have balance := h.length_eq
  rw [h.visited_eq mem_all empty, empty, List.length_nil] at balance
  omega

include sound

/-- The invariant holds until all states are expanded, by induction on the iterations. -/
theorem invariant_iterates {n : Nat} (atMost : n ≤ count)
    : ((iterate next)^[n] first).Invariant next n first := by
  induction n with
  | zero => exact ⟨sound, fun r => Iff.rfl, rfl⟩
  | succ n ih =>
      have before := ih (Nat.le_of_succ_le atMost)
      rw [Function.iterate_succ_apply']
      exact before.iterate (before.stack_ne_nil mem_all total atMost)

/-- From any sound beginning the loop ends, and it has visited what was due then. Each state has
been expanded once that was on the stack or has been visited since.
-/
theorem Sound.endsAfter : first.EndsAfter next count { visited := all, stack := [] } := by
  have last := invariant_iterates sound mem_all total (Nat.le_refl count)
  have empty : ((Traversal.iterate next)^[count] first).stack = [] := by
    have atMost := last.length_le mem_all
    have balance := last.length_eq
    exact List.length_eq_zero_iff.mp (by omega)
  refine ⟨fun n fewer => ?_, ?_, rfl⟩
  · have before := invariant_iterates sound mem_all total (Nat.le_of_lt fewer)
    exact before.stack_ne_nil mem_all total fewer
  · exact Traversal.ext (last.visited_eq mem_all empty) empty

end

/-- Where the successors of all states are finitely many, the loop ends from any sound beginning. -/
theorem Sound.exists_endsAfter (sound : work.Sound next) (finite : FinitelyBranching next)
    : ∃ count all,
        work.EndsAfter next count { visited := all, stack := [] }
        ∧ ∀ r, r ∈ all ↔ work.Due next r := by
  let all : StateSet := work.visited ∪ .ofList (discover next finite (work.stack.flatMap next))
  have mem_all (r : State) : r ∈ all ↔ work.Due next r := by
    simp only [all, Due, SortedSet.mem_union, SortedSet.mem_ofList, mem_discover,
      List.mem_flatMap]
    grind
  have atLeast : work.visited.toList.length ≤ all.toList.length :=
    SortedSet.length_le_of_subset fun r known => (mem_all r).mpr (Or.inl known)
  have total
      : work.visited.toList.length
          + (all.toList.length + work.stack.length - work.visited.toList.length)
        = all.toList.length + work.stack.length := by
    omega
  exact ⟨_, all, sound.endsAfter mem_all total, mem_all⟩

/-- A sound traversal is sound at its end, by induction on the iterations. -/
theorem EndsAfter.sound {last : Traversal} (h : work.EndsAfter next count last)
    (sound : work.Sound next)
    : last.Sound next := by
  obtain ⟨-, rfl, -⟩ := h
  induction count with
  | zero => exact sound
  | succ n ih =>
      rw [Function.iterate_succ_apply']
      exact ih.iterate

/-- The loop ends in one way only. -/
theorem EndsAfter.unique {last last' : Traversal} {count' : Nat}
    (one : work.EndsAfter next count last) (two : work.EndsAfter next count' last')
    : count = count' ∧ last = last' := by
  obtain ⟨more, rfl, empty⟩ := one
  obtain ⟨more', rfl, empty'⟩ := two
  obtain less | rfl | less := Nat.lt_trichotomy count count'
  · exact absurd empty (more' count less)
  · exact ⟨rfl, rfl⟩
  · exact absurd empty' (more count' less)

/-- A traversal that has just begun is sound, for its one visited state waits on the stack. -/
theorem sound_start (root : State) : (start root).Sound next := fun _ mem =>
  Or.inl (List.mem_singleton.mpr (SortedSet.mem_singleton.mp mem))

/-- What is due at the beginning is all that the root reaches. -/
theorem due_start : (start root).Due next r ↔ Reaches next root r := by
  constructor
  · rintro (known | ⟨p, waits, q, first, way⟩)
    · obtain rfl := SortedSet.mem_singleton.mp known
      exact .refl r
    · obtain rfl := List.mem_singleton.mp waits
      exact .step first way
  · exact (sound_start root).due (SortedSet.mem_singleton.mpr rfl)

/-- The loop expands each state that the root reaches once, and then it is over. -/
theorem endsAfter_start {all : StateSet} (mem_all : ∀ r, r ∈ all ↔ Reaches next root r)
    : (start root).EndsAfter next all.toList.length { visited := all, stack := [] } :=
  (sound_start root).endsAfter (fun r => (mem_all r).trans due_start.symm) (Nat.add_comm 1 _)

end Traversal

namespace Nfa

/-- A stored silent transition leads from the one state to the other. -/
def Silent (nfa : Nfa) (p q : State) : Prop :=
  ⟨p, .epsilon, q⟩ ∈ nfa.transitions

/-- The closure of a state has the states to which a chain of silent transitions leads. -/
theorem mem_closure_iff_reflTransGen {nfa : Nfa} {p q : State}
    : q ∈ nfa.closure p ↔ Relation.ReflTransGen nfa.Silent p q := by
  have stored : (fun p q => q ∈ nfa.silentTargets p) = nfa.Silent := by
    funext p q
    exact propext mem_targets
  rw [mem_closure, reaches_iff_reflTransGen, stored]

/-- The depth-first traversal along silent transitions ends with the closure, after one iteration
for each of its states. The closure is that under zero or more stored silent transitions; so it is
closed under one of them, and has the closures of its members within it.
-/
theorem closure_depthFirst (nfa : Nfa) (q : State)
    : (Traversal.start q).EndsAfter nfa.silentTargets (nfa.closure q).toList.length
          { visited := nfa.closure q, stack := [] }
      ∧ (∀ r, r ∈ nfa.closure q ↔ Relation.ReflTransGen nfa.Silent q r)
      ∧ (∀ r ∈ nfa.closure q, ∀ s, nfa.Silent r s → s ∈ nfa.closure q)
      ∧ ∀ r ∈ nfa.closure q, ∀ s ∈ nfa.closure r, s ∈ nfa.closure q := by
  refine ⟨Traversal.endsAfter_start fun r => mem_closure, fun r => mem_closure_iff_reflTransGen,
    fun r mem s silent => ?_, nfa.isClosed_closure q⟩
  rw [mem_closure_iff_reflTransGen] at mem ⊢
  exact mem.tail silent

end Nfa

end Munch
