import Munch.Proofs.SubsetExactness

/-! The worklist of the subset construction. Discovery is run as a loop here: everything found has a
number, numbers wait in a queue, and the queue grows while it is drained. As a set gets a number
once and there are finitely many sets, the loop ends, and then each number has left the queue once.
-/

namespace Munch

variable {α : Type}

/-- A worklist at work. What is found is numbered by its place. -/
structure Worklist (α : Type) where
  found : List α
  /-- The numbers that wait, the next one first. -/
  queue : List Nat
  /-- The numbers that have left the queue, the latest one last. -/
  taken : List Nat

namespace Worklist

variable [DecidableEq α]

/-- What is new gets the next number, which has to wait. -/
def intern (work : Worklist α) (a : α) : Worklist α :=
  if a ∈ work.found then work
  else { work with found := work.found ++ [a], queue := work.queue ++ [work.found.length] }

/-- One iteration of the loop: a number leaves the queue, and all that its element leads to is
interned. There is none when the queue is empty, and none goes through where `next?` cannot tell
what the element leads to.
-/
def iterate? (next? : α → Option (List α)) (work : Worklist α) : Option (Worklist α) :=
  match work.queue with
  | [] => none
  | number :: queue => do
    let a ← work.found[number]?
    let reached ← next? a
    return reached.foldl intern { work with queue, taken := work.taken ++ [number] }

/-- The loop goes through a number of iterations, and then the queue is empty or the next iteration
fails, which leaves no worklist.
-/
inductive Ends (next? : α → Option (List α)) : Nat → Worklist α → Option (Worklist α) → Prop where
  | drained {work : Worklist α} (empty : work.queue = []) : Ends next? 0 work (some work)
  | failed {work : Worklist α} (waiting : work.queue ≠ []) (fails : work.iterate? next? = none)
      : Ends next? 0 work none
  | later {count : Nat} {work more : Worklist α} {outcome : Option (Worklist α)}
      (first : work.iterate? next? = some more) (rest : Ends next? count more outcome)
      : Ends next? (count + 1) work outcome

variable {next? : α → Option (List α)} {work : Worklist α} {outcome other : Option (Worklist α)}

/-- There is no iteration when the queue is empty. -/
theorem iterate?_eq_none_of_queue (empty : work.queue = []) : work.iterate? next? = none := by
  rw [iterate?, empty]

/-- The loop ends in one way only. -/
theorem Ends.unique {m n : Nat} (one : Ends next? m work outcome) (two : Ends next? n work other)
    : m = n ∧ outcome = other := by
  induction one generalizing n with
  | drained empty =>
      cases two with
      | drained => exact ⟨rfl, rfl⟩
      | failed waiting => exact absurd empty waiting
      | later first => cases (iterate?_eq_none_of_queue empty).symm.trans first
  | failed waiting fails =>
      cases two with
      | drained empty => exact absurd empty waiting
      | failed => exact ⟨rfl, rfl⟩
      | later first => cases fails.symm.trans first
  | later first _ ih =>
      cases two with
      | drained empty => cases (iterate?_eq_none_of_queue empty).symm.trans first
      | failed _ fails => cases fails.symm.trans first
      | later first' rest =>
          cases first.symm.trans first'
          obtain ⟨rfl, rfl⟩ := ih rest
          exact ⟨rfl, rfl⟩

-----------------------------------------------------------------------------------------
-- The loop is the discovery
-----------------------------------------------------------------------------------------

/-- Interning one element after the other puts those that are new behind what is found, each once,
by induction on the elements.
-/
theorem foldl_intern (work : Worklist α) (items : List α)
    : items.foldl intern work
      = let fresh := (items.filter (· ∉ work.found)).eraseDups
        {
          found := work.found ++ fresh,
          queue := work.queue ++ List.range' work.found.length fresh.length,
          taken := work.taken
        } := by
  induction items generalizing work with
  | nil => simp
  | cons a items ih =>
      rw [List.foldl_cons, ih, intern]
      by_cases known : a ∈ work.found
      · simp [known]
      · have others
            : items.filter (· ∉ work.found ++ [a])
              = (items.filter (· ∉ work.found)).filter fun b => !b == a := by
          rw [List.filter_filter]
          refine List.filter_congr fun b _ => ?_
          by_cases same : b = a <;> simp [same]
        simp only [known, if_false, others]
        simp [known, List.eraseDups_cons, List.range'_succ]

variable {next : α → List α} {finite : FinitelyBranching next} {explored pending : List α}

/-- The worklist of a discovery: what is explored has left the queue, and what is pending waits. -/
def ofParts (explored pending : List α) : Worklist α where
  found := explored ++ pending
  queue := List.range' explored.length pending.length
  taken := List.range explored.length

/-- The first element that is interned waits alone. -/
theorem intern_root (root : α) : intern ⟨[], [], []⟩ root = ofParts [] [root] := rfl

/-- The iteration that explores an element. -/
theorem iterate?_ofParts {a : α} {rest : List α} (told : next? a = some (next a))
    : (ofParts explored (a :: rest)).iterate? next?
      = some (ofParts (explored ++ [a]) (rest ++ newcomers next (explored ++ a :: rest) a)) := by
  have queues (n : Nat)
      : List.range' (explored.length + 1) rest.length
          ++ List.range' (explored.length + (rest.length + 1)) n
        = List.range' (explored.length + 1) (rest.length + n) := by
    rw [← List.range'_append_1]
    congr 2
    omega
  simp [iterate?, ofParts, List.range'_succ, told, foldl_intern, newcomers, queues,
    List.range_succ]

/-- No iteration goes through an element about which nothing is told. -/
theorem iterate?_ofParts_eq_none {a : α} {rest : List α} (untold : next? a = none)
    : (ofParts explored (a :: rest)).iterate? next? = none := by
  simp [iterate?, ofParts, List.range'_succ, untold]

/-- The loop that is told about all that there is to discover discovers it, with one iteration for
each element, by induction on the exploration.
-/
theorem exists_ends_explore
    (told : ∀ a ∈ explore next finite explored pending, next? a = some (next a))
    : ∃ count, explored.length + count = (explore next finite explored pending).length
        ∧ Ends next? count (ofParts explored pending)
            (some (ofParts (explore next finite explored pending) [])) := by
  fun_induction explore next finite explored pending with
  | case1 explored => exact ⟨0, rfl, .drained rfl⟩
  | case2 explored a rest ih =>
      obtain ⟨count, total, ends⟩ := ih told
      have first := told a (isPrefix_explore.subset (by simp))
      refine ⟨count + 1, ?_, .later (iterate?_ofParts first) ends⟩
      rw [← total, List.length_append, List.length_singleton, Nat.add_assoc, Nat.add_comm 1]

/-- The loop that is not told about something fails, and at the latest when all but that is
explored, by induction on the exploration.
-/
theorem exists_ends_none (same : ∀ a, next? a = none ∨ next? a = some (next a))
    (done : ∀ a ∈ explored, next? a ≠ none)
    (untold : ∃ a ∈ explore next finite explored pending, next? a = none)
    : ∃ count, explored.length + count < (explore next finite explored pending).length
        ∧ Ends next? count (ofParts explored pending) none := by
  fun_induction explore next finite explored pending with
  | case1 explored =>
      obtain ⟨a, mem, none⟩ := untold
      exact absurd none (done a mem)
  | case2 explored a rest ih =>
      obtain none | told := same a
      · refine ⟨0, ?_, .failed (by simp [ofParts]) (iterate?_ofParts_eq_none none)⟩
        have longer
            : (explored ++ [a]).length
              ≤ (explore next finite (explored ++ [a])
                  (rest ++ newcomers next (explored ++ a :: rest) a)).length :=
          ((List.prefix_append _ _).trans isPrefix_explore).length_le
        rwa [List.length_append] at longer
      · obtain ⟨count, bound, ends⟩ := ih (by grind) untold
        refine ⟨count + 1, ?_, .later (iterate?_ofParts told) ends⟩
        rw [List.length_append, List.length_singleton] at bound
        omega

end Worklist

namespace Nfa

/-- The sets reached from a set, as long as the automaton owns the states that the characters lead
to.
-/
def nextSets? (nfa : Nfa) (table : nfa.ClosureTable) (set : StateSet) : Option (List StateSet) :=
  if nfa.alphabet.toList.any (nfa.strays set) then none else some (nfa.nextSets table set)

/-- The subset construction as a loop, with the number of its iterations and the worklist that it
leaves. It fails at once on a start state that the automaton does not own.
-/
inductive Determinizes (nfa : Nfa) : Nat → Option (Worklist StateSet) → Prop where
  | unowned (outside : nfa.stateCount ≤ nfa.start) : nfa.Determinizes 0 none
  | owned {count : Nat} {outcome : Option (Worklist StateSet)}
      (inside : nfa.start < nfa.stateCount)
      (ends
        : Worklist.Ends (nfa.nextSets? nfa.closureTable) count
            (Worklist.intern ⟨[], [], []⟩ (nfa.closureTable.closure nfa.start)) outcome)
      : nfa.Determinizes count outcome

variable {nfa : Nfa} {table : nfa.ClosureTable} {set : StateSet}

/-- The next sets of a set can be told exactly if no character leads from it out of the states that
the automaton owns.
-/
theorem nextSets?_ne_none_iff
    : nfa.nextSets? table set ≠ none ↔ ∀ c ∈ nfa.alphabet.toList, nfa.strays set c = false := by
  simp [nextSets?]

/-- Where the next sets can be told, they are those of the discovery. -/
theorem nextSets?_eq_or (set : StateSet)
    : nfa.nextSets? table set = none ∨ nfa.nextSets? table set = some (nfa.nextSets table set) := by
  rw [nextSets?]
  exact ite_eq_or_eq _ _ _

/-- There is one number of iterations and one outcome. -/
theorem Determinizes.unique {m n : Nat} {outcome other : Option (Worklist StateSet)}
    (one : nfa.Determinizes m outcome) (two : nfa.Determinizes n other)
    : m = n ∧ outcome = other := by
  cases one with
  | unowned outside =>
      cases two with
      | unowned => exact ⟨rfl, rfl⟩
      | owned inside => exact absurd inside (Nat.not_lt.mpr outside)
  | owned inside ends =>
      cases two with
      | unowned outside => exact absurd inside (Nat.not_lt.mpr outside)
      | owned _ ends' => exact ends.unique ends'

/-- The worklist starts with the closure of the start state, and so does the discovery. -/
theorem subsets_eq_explore
    : nfa.subsets table
      = explore (nfa.nextSets table) (nfa.finitelyBranching_nextSets table) []
          [table.closure nfa.start] := by
  rw [subsets, discover, List.eraseDups_cons]
  rfl

/-- An automaton that keeps to the states it owns is determinized in as many iterations as there are
sets to find.
-/
theorem determinizes_subsets (owns : nfa.OwnsAll (nfa.subsets nfa.closureTable))
    : nfa.Determinizes (nfa.subsets nfa.closureTable).length
        (some (.ofParts (nfa.subsets nfa.closureTable) [])) := by
  obtain ⟨inside, owned⟩ := owns
  refine .owned inside ?_
  rw [Worklist.intern_root, subsets_eq_explore]
  rw [subsets_eq_explore] at owned
  obtain ⟨count, total, ends⟩ := Worklist.exists_ends_explore fun set found =>
    (nextSets?_eq_or set).resolve_left (nextSets?_ne_none_iff.mpr (owned set found))
  rw [List.length_nil, Nat.zero_add] at total
  exact total ▸ ends

/-- An automaton that goes astray makes the loop fail, with no more iterations before than there are
sets to find.
-/
theorem exists_determinizes_none (astray : nfa.GoesAstray)
    : ∃ count ≤ (nfa.subsets nfa.closureTable).length, nfa.Determinizes count none := by
  by_cases inside : nfa.start < nfa.stateCount
  · have untold
        : ∃ set ∈ nfa.subsets nfa.closureTable, nfa.nextSets? nfa.closureTable set = none := by
      by_contra told
      push Not at told
      refine (not_ownsAll_iff nfa.closureTable).mpr astray ⟨inside, fun set found => ?_⟩
      exact nextSets?_ne_none_iff.mp (told set found)
    rw [subsets_eq_explore] at untold ⊢
    obtain ⟨count, fewer, ends⟩ := Worklist.exists_ends_none nextSets?_eq_or (by simp) untold
    rw [List.length_nil, Nat.zero_add] at fewer
    exact ⟨count, Nat.le_of_lt fewer, .owned inside ends⟩
  · exact ⟨0, Nat.zero_le _, .unowned (Nat.le_of_not_lt inside)⟩

/-- The loop determinizes exactly the automata that keep to the states they own. With `k` states
among the start and the ends of the transitions there are at most `2 ^ k - 1` iterations.
-/
theorem exists_determinizes (nfa : Nfa) (label : String)
    : ∃ count, count ≤ 2 ^ (nfa.transitions.states.insert nfa.start).toList.length - 1
        ∧ ((nfa.GoesAstray ∧ Dfa.ofNfa? nfa label = none ∧ nfa.Determinizes count none)
          ∨ (¬nfa.GoesAstray
            ∧ ∃ last, nfa.Determinizes count (some last)
              ∧ Dfa.ofNfa? nfa label = some (.ofSubsets nfa nfa.closureTable last.found label)
              ∧ last.taken = List.range last.found.length
              ∧ count = last.found.length
              ∧ last.found.Nodup
              ∧ ∀ set ∈ last.found,
                  set ≠ ∅ ∧ ∀ q ∈ set, q ∈ nfa.transitions.states.insert nfa.start)) := by
  have bound := Nat.le_pred_of_lt (nfa.length_subsets_lt nfa.closureTable)
  by_cases astray : nfa.GoesAstray
  · obtain ⟨count, fewer, fails⟩ := exists_determinizes_none astray
    exact ⟨count, fewer.trans bound,
      Or.inl ⟨astray, Dfa.ofNfa?_eq_none_iff.mpr astray, fails⟩⟩
  · have owns : nfa.OwnsAll (nfa.subsets nfa.closureTable) :=
      not_imp_comm.mp (not_ownsAll_iff nfa.closureTable).mp astray
    have found : (Worklist.ofParts (nfa.subsets nfa.closureTable) []).found
        = nfa.subsets nfa.closureTable := List.append_nil _
    refine ⟨_, bound, Or.inr ⟨astray, _, determinizes_subsets owns, ?_⟩⟩
    rw [found]
    refine ⟨if_pos owns, rfl, rfl, nfa.nodup_subsets _, fun set known => ⟨?_, fun q mem => ?_⟩⟩
    · rintro rfl
      exact nfa.empty_not_mem_subsets _ known
    · exact mem_states_of_mem_subsets known mem

end Nfa

end Munch
