import Mathlib.Logic.Relation
import Munch.Proofs.CanonicalForm
import Munch.Proofs.Worklist

/-! The transitions of the subset construction, as they are stored on the way. The sink gets its
number when all sets have theirs, so until then another number stands for it. At the end the row of
the sink is added, its number takes the place of the other one, and the transitions are sorted. They
are the rows of the sets in their order then, unless there are so many sets that one of them has got
the number that stood for the sink.
-/

namespace Munch

namespace Nfa

/-- The subset construction at work, with the transitions that are stored so far. -/
@[ext]
structure Construction where
  work : Worklist StateSet
  stored : Transitions Char

namespace Construction

/-- The construction before its first iteration. -/
def start (nfa : Nfa) : Construction where
  work := .intern ⟨[], [], []⟩ (nfa.closureTable.closure nfa.start)
  stored := ∅

/-- Stores the transition of a set with a number on a character. The set that it leads to is
interned, unless that has no members.
-/
def follow (nfa : Nfa) (pending number : State) (set : StateSet) (state : Construction) (c : Char)
    : Construction :=
  let reached := nfa.closureTable.advance set c
  if reached.isEmpty then { state with stored := state.stored.push ⟨number, c, pending⟩ }
  else
    let work := state.work.intern reached
    { work, stored := state.stored.push ⟨number, c, work.found.idxOf reached⟩ }

/-- One iteration: a number leaves the queue, and the transitions of its set are stored in the order
of the alphabet. There is none when the queue is empty, and none goes through where a character
leads to a state that the automaton does not own.
-/
def expand? (nfa : Nfa) (pending : State) (state : Construction) : Option Construction :=
  match state.work.queue with
  | [] => none
  | number :: queue => do
      let set ← state.work.found[number]?
      if nfa.alphabet.toList.any (nfa.strays set) then none
      else
        let work := { state.work with queue, taken := state.work.taken ++ [number] }
        return nfa.alphabet.toList.foldl (follow nfa pending number set) { state with work }

/-- The number of the sink in the place of the one that stood for it. -/
def settled (pending sink q : State) : State := if q = pending then sink else q

/-- The transitions at the end, with the row of the sink, which has the number after the last set.
-/
def finish (nfa : Nfa) (pending : State) (last : Construction) : Transitions Char :=
  let sink := last.work.found.length
  let row := nfa.alphabet.toList.map fun c => ⟨pending, c, pending⟩
  ((last.stored.append row).remap (settled pending sink)).sort

end Construction

/-- The construction goes from one state of work to the other. -/
def Expands (nfa : Nfa) (pending : State) (state next : Construction) : Prop :=
  state.expand? nfa pending = some next

/-- The construction comes to an end with an empty queue. -/
def Constructs (nfa : Nfa) (pending : State) (last : Construction) : Prop :=
  Relation.ReflTransGen (nfa.Expands pending) (.start nfa) last ∧ last.work.queue = []

variable {nfa : Nfa} {pending number : State} {sets explored waiting : List StateSet}
  {set : StateSet}

-----------------------------------------------------------------------------------------
-- One iteration
-----------------------------------------------------------------------------------------

/-- The transition of a set as long as the sink is pending, with the numbers that other sets have in
the end.
-/
def pendingTransition (nfa : Nfa) (pending : State) (sets : List StateSet) (number : State)
    (set : StateSet) (c : Char)
    : Transition Char :=
  let reached := nfa.closureTable.advance set c
  ⟨number, c, if reached.isEmpty then pending else sets.idxOf reached⟩

/-- The transitions of the sets that are explored. -/
def pendingRows (nfa : Nfa) (pending : State) (sets explored : List StateSet) : Transitions Char :=
  ⟨explored.zipIdx.flatMap fun (set, number) =>
    nfa.alphabet.toList.map (nfa.pendingTransition pending sets number set)⟩

namespace Construction

variable {state next : Construction}

/-- As far as the worklist goes, following the characters interns the sets that they lead to. -/
theorem work_foldl_follow (letters : List Char) (state : Construction)
    : (letters.foldl (follow nfa pending number set) state).work
      = ((letters.map (nfa.closureTable.advance set)).filter (!·.isEmpty)).foldl Worklist.intern
          state.work := by
  induction letters generalizing state with
  | nil => rfl
  | cons c letters ih =>
      rw [List.foldl_cons, ih, List.map_cons, List.filter_cons, follow]
      by_cases empty : (nfa.closureTable.advance set c).isEmpty <;> simp [empty]

/-- An iteration does to the worklist what the iteration of the worklist does. -/
theorem map_work_expand? (state : Construction)
    : (state.expand? nfa pending).map Construction.work
      = state.work.iterate? (nfa.nextSets? nfa.closureTable) := by
  unfold expand? Worklist.iterate?
  cases state.work.queue with
  | nil => rfl
  | cons number queue =>
      simp only [Option.pure_def, Option.bind_eq_bind, Option.map_bind]
      refine congrArg _ (funext fun set => ?_)
      by_cases astray : nfa.alphabet.toList.any (nfa.strays set) = true
      · simp only [Function.comp_apply, nextSets?, if_pos astray, Option.map_none,
          Option.bind_none]
      · simp only [Function.comp_apply, nextSets?, if_neg astray, Option.map_some,
          Option.bind_some, work_foldl_follow, nextSets]

/-- What is interned is found. -/
theorem mem_found_intern (work : Worklist StateSet) (set : StateSet)
    : set ∈ (work.intern set).found := by
  unfold Worklist.intern
  split
  · assumption
  · simp

/-- Interning takes nothing away from what is found. -/
theorem found_isPrefix_foldl_intern (work : Worklist StateSet) (items : List StateSet)
    : work.found <+: (items.foldl Worklist.intern work).found := by
  rw [Worklist.foldl_intern]
  exact List.prefix_append _ _

/-- What stands in a list has the same place in any longer one. -/
theorem idxOf_of_isPrefix {found : List StateSet} (within : found <+: sets) (mem : set ∈ found)
    : found.idxOf set = sets.idxOf set := by
  obtain ⟨rest, rfl⟩ := within
  rw [List.idxOf_append_of_mem mem]

/-- A transition is stored with the number that its target has in the end. -/
theorem stored_follow {c : Char}
    (within : (follow nfa pending number set state c).work.found <+: sets)
    : (follow nfa pending number set state c).stored
      = state.stored.push (nfa.pendingTransition pending sets number set c) := by
  by_cases empty : (nfa.closureTable.advance set c).isEmpty = true
  · simp only [follow, pendingTransition, if_pos empty]
  · simp only [follow, if_neg empty] at within
    simp only [follow, pendingTransition, if_neg empty,
      idxOf_of_isPrefix within (mem_found_intern _ _)]

/-- Following the characters stores their transitions, by induction on the characters. -/
theorem stored_foldl_follow (letters : List Char) (state : Construction)
    (within : (letters.foldl (follow nfa pending number set) state).work.found <+: sets)
    : (letters.foldl (follow nfa pending number set) state).stored
      = state.stored.append (letters.map (nfa.pendingTransition pending sets number set)) := by
  induction letters generalizing state with
  | nil => simp [Transitions.append]
  | cons c letters ih =>
      have whole := within
      rw [List.foldl_cons, work_foldl_follow] at within
      have here := stored_follow ((found_isPrefix_foldl_intern _ _).trans within)
      rw [List.foldl_cons] at whole ⊢
      rw [ih _ whole, here]
      simp [Transitions.append, Transitions.push]

/-- An iteration stores the transitions of the set whose number leaves the queue. -/
theorem stored_expand? {queue : List Nat} (expanded : state.expand? nfa pending = some next)
    (waits : state.work.queue = number :: queue) (known : state.work.found[number]? = some set)
    (within : next.work.found <+: sets)
    : next.stored
      = state.stored.append
          (nfa.alphabet.toList.map (nfa.pendingTransition pending sets number set)) := by
  rw [expand?, waits] at expanded
  simp only [known, Option.pure_def, Option.bind_eq_bind, Option.bind_some] at expanded
  split at expanded
  · cases expanded
  · obtain rfl := Option.some.inj expanded
    exact stored_foldl_follow _ _ within

/-- The iteration that explores a set, with the worklist of the discovery. -/
theorem expand?_ofParts {rest : List StateSet}
    (told : nfa.nextSets? nfa.closureTable set = some (nfa.nextSets nfa.closureTable set))
    (within
      : explored ++ [set]
          ++ (rest ++ newcomers (nfa.nextSets nfa.closureTable) (explored ++ set :: rest) set)
        <+: sets)
    : nfa.Expands pending
        ⟨.ofParts explored (set :: rest), nfa.pendingRows pending sets explored⟩
        ⟨.ofParts (explored ++ [set])
            (rest ++ newcomers (nfa.nextSets nfa.closureTable) (explored ++ set :: rest) set),
          nfa.pendingRows pending sets (explored ++ [set])⟩ := by
  let state : Construction :=
    ⟨.ofParts explored (set :: rest), nfa.pendingRows pending sets explored⟩
  have work : (state.expand? nfa pending).map Construction.work = _ :=
    (map_work_expand? state).trans (Worklist.iterate?_ofParts told)
  obtain ⟨next, expanded, same⟩ := Option.map_eq_some_iff.mp work
  have waits
      : state.work.queue = explored.length :: List.range' (explored.length + 1) rest.length :=
    List.range'_succ
  have known : state.work.found[explored.length]? = some set := by
    simp [state, Worklist.ofParts]
  have stored : next.stored = nfa.pendingRows pending sets (explored ++ [set]) := by
    have inside : next.work.found <+: sets := by
      rw [same]
      exact within
    rw [stored_expand? expanded waits known inside]
    simp [state, pendingRows, Transitions.append, List.zipIdx_append]
  exact expanded.trans (congrArg some (Construction.ext same stored))

/-- The loop stores the transitions of all sets that there are to discover, by induction on the
exploration.
-/
theorem expands_explore {finite : FinitelyBranching (nfa.nextSets nfa.closureTable)}
    (told
      : ∀ set ∈ explore (nfa.nextSets nfa.closureTable) finite explored waiting,
          nfa.nextSets? nfa.closureTable set = some (nfa.nextSets nfa.closureTable set))
    (all : sets = explore (nfa.nextSets nfa.closureTable) finite explored waiting)
    : Relation.ReflTransGen (nfa.Expands pending)
        ⟨.ofParts explored waiting, nfa.pendingRows pending sets explored⟩
        ⟨.ofParts sets [], nfa.pendingRows pending sets sets⟩ := by
  fun_induction explore (nfa.nextSets nfa.closureTable) finite explored waiting with
  | case1 explored =>
      subst all
      exact .refl
  | case2 explored set rest ih =>
      have here := told set (isPrefix_explore.subset (by simp))
      exact .head (expand?_ofParts here (all ▸ isPrefix_explore)) (ih told all)

end Construction

/-- With an empty queue there is no iteration. -/
theorem not_expands_of_queue {state next : Construction} (empty : state.work.queue = [])
    : ¬nfa.Expands pending state next := by
  intro expands
  rw [Expands, Construction.expand?, empty] at expands
  cases expands

/-- An iteration has one outcome, so the construction comes to one end. -/
theorem Constructs.unique {last last' : Construction} (one : nfa.Constructs pending last)
    (two : nfa.Constructs pending last')
    : last = last' := by
  have only : Relator.RightUnique (nfa.Expands pending) := fun _ _ _ first second =>
    Option.some.inj (first.symm.trans second)
  have stays {state next : Construction} (empty : state.work.queue = [])
      (way : Relation.ReflTransGen (nfa.Expands pending) state next)
      : state = next := by
    obtain rfl | ⟨_, first, _⟩ := way.cases_head
    · rfl
    · exact absurd first (not_expands_of_queue empty)
  obtain way | way := Relation.ReflTransGen.total_of_right_unique only one.1 two.1
  · exact stays one.2 way
  · exact (stays two.2 way).symm

/-- The construction of an automaton that keeps to the states it owns comes to an end, with all sets
found and their transitions stored.
-/
theorem constructs_subsets (owns : nfa.OwnsAll (nfa.subsets nfa.closureTable))
    : nfa.Constructs pending
        ⟨.ofParts (nfa.subsets nfa.closureTable) [],
          nfa.pendingRows pending (nfa.subsets nfa.closureTable)
            (nfa.subsets nfa.closureTable)⟩ := by
  refine ⟨?_, rfl⟩
  refine Construction.expands_explore (fun set found => ?_) subsets_eq_explore
  rw [← subsets_eq_explore] at found
  exact (nextSets?_eq_or set).resolve_left (nextSets?_ne_none_iff.mpr (owns.2 set found))

/-- The loop with the transitions comes to an end only where the loop of the worklist does. -/
theorem Constructs.determinizes {last : Construction} (h : nfa.Constructs pending last)
    (inside : nfa.start < nfa.stateCount)
    : ∃ count, nfa.Determinizes count (some last.work) := by
  obtain ⟨way, empty⟩ := h
  suffices ends
      : ∃ count,
          Worklist.Ends (nfa.nextSets? nfa.closureTable) count (Construction.start nfa).work
            (some last.work) by
    obtain ⟨count, ends⟩ := ends
    exact ⟨count, .owned inside ends⟩
  generalize Construction.start nfa = state at way ⊢
  induction way using Relation.ReflTransGen.head_induction_on with
  | refl => exact ⟨0, .drained empty⟩
  | head first _ ih =>
      obtain ⟨count, ends⟩ := ih
      refine ⟨count + 1, .later ?_ ends⟩
      rw [← Construction.map_work_expand?, first]
      rfl

end Nfa

namespace Dfa

-----------------------------------------------------------------------------------------
-- The end
-----------------------------------------------------------------------------------------

/-- The rows stand in the order of transitions. -/
theorem sort_rows (nfa : Nfa) (table : nfa.ClosureTable) (sets : List StateSet)
    : (rows nfa table sets).sort = rows nfa table sets := by
  have sorted : (rows nfa table sets).toList.Pairwise fun s t => Transition.le s t = true := by
    refine (pairwise_keyLT_rows nfa table sets).imp fun {s t} lt => ?_
    simp only [Transition.le, Bool.or_eq_true, Bool.and_eq_true, decide_eq_true_eq]
    rcases lt with lt | ⟨same, lt⟩
    · exact Or.inl lt
    · exact Or.inr ⟨same, Or.inl lt⟩
  rw [Transitions.sort, List.mergeSort_of_pairwise sorted]

open Nfa.Construction (settled)

variable {nfa : Nfa} {pending : State} {label : String} {dfa : Dfa}

/-- A number below the one of the sink is that of a set, and stays. -/
theorem settled_of_lt {sink q : State} (room : sink ≤ pending) (lt : q < sink)
    : settled pending sink q = q :=
  if_neg (Nat.ne_of_lt (Nat.lt_of_lt_of_le lt room))

/-- The transition of a set leads to its target in the end, as all sets have smaller numbers than
the one that stood for the sink.
-/
theorem settled_pendingTransition {set : StateSet} {number : State} {c : Char}
    (room : (nfa.subsets nfa.closureTable).length ≤ pending)
    (known : (nfa.subsets nfa.closureTable)[number]? = some set) (letter : c ∈ nfa.alphabet)
    : let sets := nfa.subsets nfa.closureTable
      let t := nfa.pendingTransition pending sets number set c
      (⟨settled pending sets.length t.source, t.symbol, settled pending sets.length t.target⟩
          : Transition Char)
        = ⟨number, c, sets.idxOf (nfa.closureTable.advance set c)⟩ := by
  intro sets t
  obtain ⟨within, _⟩ := List.getElem?_eq_some_iff.mp known
  have target
      : settled pending sets.length t.target = sets.idxOf (nfa.closureTable.advance set c) := by
    by_cases empty : (nfa.closureTable.advance set c).isEmpty = true
    · have behind : sets.idxOf (nfa.closureTable.advance set c) = sets.length := by
        rw [SortedSet.isEmpty_iff.mp empty]
        exact List.idxOf_eq_length (nfa.empty_not_mem_subsets _)
      simp only [t, Nfa.pendingTransition, if_pos empty, behind]
      exact if_pos rfl
    · have tracked := Nfa.tracked_advance (Or.inl (List.mem_of_getElem? known)) letter
      rw [← Nfa.ClosureTable.advance_eq nfa.closureTable] at tracked
      have found := tracked.resolve_right (mt SortedSet.isEmpty_iff.mpr empty)
      simp only [t, Nfa.pendingTransition, if_neg empty]
      exact settled_of_lt room (List.idxOf_lt_length_of_mem found)
  have source : settled pending sets.length t.source = number := settled_of_lt room within
  rw [target, source]
  rfl

/-- With the number of the sink in place, its row stands behind those of the sets. -/
theorem remap_pendingRows (room : (nfa.subsets nfa.closureTable).length ≤ pending)
    : let sets := nfa.subsets nfa.closureTable
      let row := nfa.alphabet.toList.map fun c => (⟨pending, c, pending⟩ : Transition Char)
      ((nfa.pendingRows pending sets sets).append row).remap (settled pending sets.length)
        = rows nfa nfa.closureTable sets := by
  intro sets row
  have sink : settled pending sets.length pending = sets.length := if_pos rfl
  simp only [Transitions.remap, Transitions.append, Nfa.pendingRows, rows, row, List.map_append,
    List.map_flatMap, List.map_map, Function.comp_def, sink]
  congr 2
  refine List.flatMap_congr fun entry mem => List.map_congr_left fun c letter => ?_
  exact settled_pendingTransition room (List.mem_zipIdx_iff_getElem?.mp mem) letter

/-- Whatever number stands for the sink on the way, the subset construction succeeds exactly if the
loop comes to an end, and its automaton has the transitions that the loop ends with, as long as no
set gets that number.
-/
theorem ofNfa?_eq_some_iff_constructs (room : (nfa.subsets nfa.closureTable).length ≤ pending)
    : ofNfa? nfa label = some dfa
      ↔ nfa.start < nfa.stateCount
        ∧ ∃ last,
            (∀ other, nfa.Constructs pending other ↔ other = last)
            ∧ dfa = ofSubsets nfa nfa.closureTable last.work.found label
            ∧ dfa.transitions = last.finish nfa pending := by
  have found : (Worklist.ofParts (nfa.subsets nfa.closureTable) []).found
      = nfa.subsets nfa.closureTable := List.append_nil _
  constructor
  · intro made
    have owns : nfa.OwnsAll (nfa.subsets nfa.closureTable) := by
      by_contra astray
      rw [ofNfa?, if_neg astray] at made
      cases made
    rw [ofNfa?, if_pos owns] at made
    obtain rfl := Option.some.inj made
    have constructs : nfa.Constructs pending _ := Nfa.constructs_subsets owns
    refine ⟨owns.1, _, fun other => ⟨fun ends => ends.unique constructs, ?_⟩, by rw [found], ?_⟩
    · rintro rfl
      exact constructs
    · rw [Nfa.Construction.finish, found, remap_pendingRows room, sort_rows]
      rfl
  · rintro ⟨inside, last, constructs, rfl, -⟩
    obtain ⟨_, ends⟩ := ((constructs last).mpr rfl).determinizes inside
    by_cases owns : nfa.OwnsAll (nfa.subsets nfa.closureTable)
    · obtain ⟨-, same⟩ := ends.unique (Nfa.determinizes_subsets owns)
      rw [Option.some.inj same, found, ofNfa?, if_pos owns]
    · have astray := (Nfa.not_ownsAll_iff nfa.closureTable).mp owns
      obtain ⟨_, _, fails⟩ := Nfa.exists_determinizes_none astray
      cases (ends.unique fails).2

end Dfa

end Munch
