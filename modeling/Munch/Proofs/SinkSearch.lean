import Munch.Proofs.DepthFirst

/-! The search for sinks, as a program goes about it. The relation is turned round, and a
depth-first traversal is made from each final state, which leaves out whatever the traversals before
it have visited. A final state is not visited as such; it may be met on a way from another one, or
from itself. What has not been visited and is not final is a sink, and the relation is turned back.
All this finds the states that one breadth-first discovery along predecessors does not find.
-/

namespace Munch

namespace Traversal

/-- One traversal from each root in turn. A root is to be expanded whether it has been visited or
not, and what one traversal has visited the next one starts with.
-/
inductive SearchesFrom (next : State → List State) : List State → StateSet → StateSet → Prop
  | none (visited : StateSet) : SearchesFrom next [] visited visited
  | search {root : State} {roots : List State} {count : Nat} {visited more last : StateSet}
    (first : EndsAfter next count { visited, stack := [root] } { visited := more, stack := [] })
    (rest : SearchesFrom next roots more last)
    : SearchesFrom next (root :: roots) visited last

variable {next : State → List State} {roots : List State} {visited last last' : StateSet}

/-- The searches end in one way only, by induction on the roots. -/
theorem SearchesFrom.unique (one : SearchesFrom next roots visited last)
    (two : SearchesFrom next roots visited last')
    : last = last' := by
  induction one with
  | none visited =>
      cases two with
      | none => rfl
  | search first rest ih =>
      cases two with
      | search first' rest' =>
          obtain ⟨-, same⟩ := first.unique first'
          cases same
          exact ih rest'

/-- The searches add what the roots reach by one step or more to what has been visited before, as
long as this has its successors with it, by induction on the roots.
-/
theorem exists_searchesFrom (finite : FinitelyBranching next) (roots : List State)
    (closed : Sound next { visited, stack := [] })
    : ∃ last,
        SearchesFrom next roots visited last
        ∧ ∀ r, r ∈ last ↔ r ∈ visited ∨ ∃ p ∈ roots, ∃ q ∈ next p, Reaches next q r := by
  induction roots generalizing visited with
  | nil => exact ⟨visited, .none visited, by simp⟩
  | cons root roots ih =>
      have sound : Sound next { visited, stack := [root] } := fun q known =>
        Or.inr ((closed q known).resolve_left List.not_mem_nil)
      obtain ⟨count, more, first, mem_more⟩ := sound.exists_endsAfter finite
      obtain ⟨last, rest, mem_last⟩ := ih (first.sound sound)
      refine ⟨last, .search first rest, fun r => ?_⟩
      rw [mem_last, mem_more, Due]
      simp only [List.mem_cons, List.not_mem_nil, or_false, exists_eq_left, exists_eq_or_imp,
        or_assoc]

end Traversal

namespace Dfa

variable {transitions after : Transitions Char} {finals states sinks : StateSet}

/-- The search for sinks gives them, and the relation as it is left behind. -/
inductive DetectsSinks (transitions : Transitions Char) (finals states : StateSet)
    : StateSet → Transitions Char → Prop
  | intro {reached : StateSet}
    (search
      : Traversal.SearchesFrom transitions.reverse.successors finals.toList ∅ reached)
    : DetectsSinks transitions finals states
        (states.filter fun q => q ∉ reached && q ∉ finals) transitions.reverse.reverse

/-- A way from a final state has no step at all, or it has one and goes on from there. -/
theorem exists_reaches_iff {next : State → List State} {q : State}
    : (∃ f ∈ finals, Reaches next f q)
      ↔ q ∈ finals ∨ ∃ f ∈ finals, ∃ p ∈ next f, Reaches next p q := by
  constructor
  · rintro ⟨f, final, way⟩
    cases way with
    | refl => exact Or.inl final
    | step first rest => exact Or.inr ⟨f, final, _, first, rest⟩
  · rintro (final | ⟨f, final, p, first, rest⟩)
    · exact ⟨q, final, .refl q⟩
    · exact ⟨f, final, .step first rest⟩

/-- The searches from the final states leave over exactly the states from which no way leads to a
final one.
-/
theorem filter_eq_unproductive {reached : StateSet}
    (mem_reached
      : ∀ q, q ∈ reached ↔ ∃ f ∈ finals, ∃ p ∈ transitions.predecessors f,
          Reaches transitions.predecessors p q)
    : (states.filter fun q => q ∉ reached && q ∉ finals)
      = unproductive transitions finals states := by
  ext q
  have ways := @exists_reaches_iff finals transitions.predecessors q
  simp only [Transitions.reaches_predecessors_iff] at ways mem_reached
  simp only [SortedSet.mem_filter, Bool.and_eq_true, decide_eq_true_eq, mem_unproductive, ways,
    mem_reached, not_or]
  tauto

/-- The search for sinks finds the states from which no way leads to a final one, and it leaves the
relation as it was.
-/
theorem detectsSinks_iff
    : DetectsSinks transitions finals states sinks after
      ↔ sinks = unproductive transitions finals states ∧ after = transitions := by
  have closed
      : Traversal.Sound transitions.reverse.successors { visited := ∅, stack := [] } :=
    fun q known => absurd known (SortedSet.not_mem_empty q)
  obtain ⟨reached, search, mem_reached⟩ :=
    Traversal.exists_searchesFrom transitions.reverse.finitelyBranching_successors finals.toList
      closed
  have found
      : (states.filter fun q => q ∉ reached && q ∉ finals)
        = unproductive transitions finals states := by
    refine filter_eq_unproductive fun q => ?_
    rw [mem_reached, Transitions.successors_reverse]
    simp [SortedSet.mem_toList]
  constructor
  · rintro ⟨search'⟩
    cases search'.unique search
    exact ⟨found, transitions.reverse_reverse⟩
  · rintro ⟨rfl, same⟩
    rw [same]
    have detects : DetectsSinks transitions finals states _ _ := .intro search
    rwa [found, Transitions.reverse_reverse] at detects

/-- The sinks of an automaton made from its parts are those that the search finds. -/
theorem ofParts_detectsSinks (alphabet : List Char) (label : String) (start : State)
    (finals : StateSet) (transitions : Transitions Char)
    : DetectsSinks transitions finals
        (ofParts alphabet label start finals transitions).states
        (ofParts alphabet label start finals transitions).sinks
        (ofParts alphabet label start finals transitions).transitions :=
  detectsSinks_iff.mpr ⟨rfl, rfl⟩

/-- The dead states of any automaton are those that the search finds in it. -/
theorem deadStates_detectsSinks (dfa : Dfa)
    : DetectsSinks dfa.transitions dfa.finals dfa.states dfa.deadStates dfa.transitions :=
  detectsSinks_iff.mpr ⟨rfl, rfl⟩

end Dfa

end Munch
