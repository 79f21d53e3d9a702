import Mathlib.Data.Char
import Mathlib.Data.List.Lex
import Mathlib.Data.List.Nodup
import Mathlib.Data.List.Shortlex
import Munch.Proofs.CompiledLanguage
import Munch.Proofs.DiscoveryOrder
import Munch.Proofs.SubsetExactness

/-! The form of the automata that the subset construction gives. They are complete, with one row of
transitions for each state and with the sink as the last one. The other states are numbered in the
order of the least words that lead to them: discovery is breadth first and takes the characters in
their order, so it meets words in the order of their lengths, and those of one length
alphabetically.
-/

namespace Munch

-----------------------------------------------------------------------------------------
-- The order of words
-----------------------------------------------------------------------------------------

/-- Shorter words come first, and words of one length in the order of the first characters in which
they differ.
-/
abbrev WordLT : List Char → List Char → Prop :=
  List.Shortlex (· < ·)

namespace WordLT

/-- Words are ordered transitively: a longer word stays longer, and among those of one length the
order is the alphabetical one.
-/
theorem trans {u v w : List Char} (h : WordLT u v) (h' : WordLT v w) : WordLT u w := by
  rw [WordLT, List.shortlex_def] at *
  rcases h with shorter | ⟨same, less⟩
  · exact Or.inl (by omega)
  rcases h' with shorter | ⟨same', less'⟩
  · exact Or.inl (by omega)
  · exact Or.inr ⟨same.trans same', List.lt_trans less less'⟩

/-- There is no endless descent among words, for at each length the characters come in a
well-founded order.
-/
theorem wellFounded : WellFounded WordLT := by
  have chars : WellFounded fun c d : Char => c < d := InvImage.wf Char.toNat Nat.lt_wfRel.wf
  exact List.Shortlex.wf chars

/-- Words of one length stay in their order, whatever is added to both. -/
theorem lex_concat {u v : List Char} (h : List.Lex (· < ·) u v) (same : u.length = v.length)
    (c d : Char)
    : List.Lex (· < ·) (u ++ [c]) (v ++ [d]) := by
  induction h with
  | nil => simp at same
  | cons _ ih => exact .cons (ih (Nat.succ.inj same))
  | rel less => exact .rel less

/-- Words stay in their order when one more character is added to both. -/
theorem concat {u v : List Char} (h : WordLT u v) (c d : Char)
    : WordLT (u ++ [c]) (v ++ [d]) := by
  rw [WordLT, List.shortlex_def] at *
  simp only [List.length_append, List.length_singleton]
  rcases h with shorter | ⟨same, less⟩
  · exact Or.inl (by omega)
  · exact Or.inr ⟨by omega, lex_concat less same c d⟩

end WordLT

-----------------------------------------------------------------------------------------
-- Sets are found in the order of the words that lead to them
-----------------------------------------------------------------------------------------

namespace Nfa

variable {nfa : Nfa} {table : nfa.ClosureTable}

/-- A word over the alphabet stays one with a letter at its end. -/
theorem IsWord.concat {word : List Char} {c : Char} (h : nfa.IsWord word)
    (letter : c ∈ nfa.alphabet)
    : nfa.IsWord (word ++ [c]) :=
  List.forall_mem_append.mpr ⟨h, List.forall_mem_singleton.mpr letter⟩

/-- The sets reached from a set stand in the order of the characters that lead to them. -/
theorem exists_nextSets_eq (table : nfa.ClosureTable) {set : StateSet} {c : Char}
    (letter : c ∈ nfa.alphabet) (some : nfa.advance set c ≠ ∅)
    : ∃ front back,
        nfa.nextSets table set = front ++ nfa.advance set c :: back
        ∧ ∀ other ∈ front, ∃ d ∈ nfa.alphabet, d < c ∧ other = nfa.advance set d := by
  obtain ⟨before, behind, letters⟩ := List.append_of_mem (SortedSet.mem_toList.mpr letter)
  have nonempty : (nfa.advance set c).isEmpty = false := by
    simpa [← Bool.not_eq_true] using some
  refine ⟨(before.map (nfa.advance set)).filter (!·.isEmpty),
    (behind.map (nfa.advance set)).filter (!·.isEmpty), ?_, ?_⟩
  · simp [nextSets, ClosureTable.advance_eq, letters, nonempty]
  · intro other mem
    obtain ⟨d, earlier, rfl⟩ := List.mem_map.mp (List.mem_filter.mp mem).1
    have ascending := nfa.alphabet.ascending
    rw [letters] at ascending
    refine ⟨d, SortedSet.mem_toList.mp (by simp [letters, earlier]), ?_, rfl⟩
    exact (List.pairwise_append.mp ascending).2.2 d earlier c (by simp)

/-- The sets stand in the order in which the successors of all of them, put one behind the other,
name them first.
-/
theorem pairwise_precedes_subsets (nfa : Nfa) (table : nfa.ClosureTable)
    : (nfa.subsets table).Pairwise
        (Precedes (nfa.closure nfa.start :: (nfa.subsets table).flatMap (nfa.nextSets table))) := by
  have pairwise := @pairwise_precedes_discover _ _ (nfa.nextSets table)
    (nfa.finitelyBranching_nextSets table) [nfa.closure nfa.start]
  rwa [← ClosureTable.closure_eq table] at pairwise ⊢

/-- What is found before the set to which a character leads from a known one: the first set of all,
what a set found before the known one leads to, or what a lesser character leads to.
-/
theorem found_before_advance {earlier later : List StateSet} {set first : StateSet} {c : Char}
    (known : nfa.subsets table = earlier ++ set :: later) (letter : c ∈ nfa.alphabet)
    (some : nfa.advance set c ≠ ∅)
    (order
      : Precedes (nfa.closure nfa.start :: (nfa.subsets table).flatMap (nfa.nextSets table)) first
          (nfa.advance set c))
    : first = nfa.closure nfa.start
      ∨ (∃ other ∈ earlier, ∃ d ∈ nfa.alphabet, first = nfa.advance other d)
      ∨ ∃ d ∈ nfa.alphabet, d < c ∧ first = nfa.advance set d := by
  obtain ⟨lower, higher, row, less⟩ := exists_nextSets_eq table letter some
  have occurs : nfa.closure nfa.start :: (nfa.subsets table).flatMap (nfa.nextSets table)
      = (nfa.closure nfa.start :: earlier.flatMap (nfa.nextSets table) ++ lower)
        ++ nfa.advance set c :: (higher ++ later.flatMap (nfa.nextSets table)) := by
    simp [known, row]
  rcases List.mem_append.mp (order _ _ occurs) with inEarlier | inRow
  · rcases List.mem_cons.mp inEarlier with rfl | inEarlier
    · exact Or.inl rfl
    · obtain ⟨other, found, next⟩ := List.mem_flatMap.mp inEarlier
      obtain ⟨_, d, letter, rfl⟩ := mem_nextSets.mp next
      exact Or.inr (Or.inl ⟨other, found, d, letter, rfl⟩)
  · exact Or.inr (Or.inr (less first inRow))

/-- For every word that leads to a set, lesser words lead to the sets that were found before, by
induction on the word from its end. The last characters of the two words lead there from sets of
which one was found before the other, or from the same set.
-/
theorem exists_lesser_of_mem {front back : List StateSet} {first second : StateSet}
    {word : List Char} (parted : nfa.subsets table = front ++ second :: back)
    (mem : first ∈ front) (letters : nfa.IsWord word) (leads : nfa.reached word = second)
    : ∃ lesser, nfa.IsWord lesser ∧ nfa.reached lesser = first ∧ WordLT lesser word := by
  induction word using List.reverseRecOn generalizing front back first second with
  | nil =>
      -- the empty word leads to the first set, and no set is found twice
      obtain ⟨set, rest, rfl⟩ := List.exists_cons_of_ne_nil (List.ne_nil_of_mem mem)
      have start := nfa.head?_subsets table
      have once := nfa.nodup_subsets table
      obtain rfl : set = second := by
        rw [parted] at start
        exact (Option.some.inj start).trans leads
      simp [parted] at once
  | append_singleton word c ih =>
      obtain ⟨letters, letter⟩ := List.forall_mem_append.mp letters
      have letter : c ∈ nfa.alphabet := letter c (List.mem_singleton.mpr rfl)
      rw [reached_concat] at leads
      subst leads
      have some : nfa.advance (nfa.reached word) c ≠ ∅ := by
        intro empty
        exact nfa.empty_not_mem_subsets table (by simp [parted, empty])
      have source : nfa.reached word ∈ nfa.subsets table := by
        refine (tracked_reached letters).resolve_right ?_
        intro empty
        exact some (empty ▸ nfa.advance_empty c)
      obtain ⟨earlier, later, known⟩ := List.append_of_mem source
      have order := nfa.pairwise_precedes_subsets table
      rw [parted] at order
      have order := (List.pairwise_append.mp order).2.2 first mem _ List.mem_cons_self
      rw [← parted] at order
      rcases found_before_advance known letter some order with
        rfl | ⟨set, found, d, letter, rfl⟩ | ⟨d, letter, lt, rfl⟩
      · exact ⟨[], List.forall_mem_nil _, rfl, .of_length_lt (by simp)⟩
      · obtain ⟨lesser, letters', rfl, lt⟩ := ih known found letters rfl
        exact ⟨lesser ++ [d], letters'.concat letter, reached_concat nfa lesser d, lt.concat d c⟩
      · have lt : WordLT [d] [c] := (List.shortlex_singleton_iff d c).mpr lt
        exact ⟨word ++ [d], IsWord.concat letters letter, reached_concat nfa word d,
          lt.append_left word⟩

/-- For every word that leads to a set, some lesser word leads to any set found before it. -/
theorem exists_lesser_word {i j : Nat} {word : List Char} (lt : i < j)
    (leads : (nfa.subsets table)[j]? = some (nfa.reached word)) (letters : nfa.IsWord word)
    : ∃ lesser,
        nfa.IsWord lesser
        ∧ (nfa.subsets table)[i]? = some (nfa.reached lesser)
        ∧ WordLT lesser word := by
  obtain ⟨bound, last⟩ := List.getElem?_eq_some_iff.mp leads
  have parted : nfa.subsets table
      = (nfa.subsets table).take j ++ nfa.reached word :: (nfa.subsets table).drop (j + 1) := by
    rw [← last, ← List.drop_eq_getElem_cons bound, List.take_append_drop]
  have bound' : i < (nfa.subsets table).length := Nat.lt_trans lt bound
  have mem : (nfa.subsets table)[i] ∈ (nfa.subsets table).take j :=
    List.mem_take_iff_getElem.mpr ⟨i, Nat.lt_min.mpr ⟨lt, bound'⟩, rfl⟩
  obtain ⟨lesser, letters', same, less⟩ := exists_lesser_of_mem parted mem letters rfl
  exact ⟨lesser, letters', by rw [same, List.getElem?_eq_getElem bound'], less⟩

end Nfa

-----------------------------------------------------------------------------------------
-- States are numbered in the order of their least words
-----------------------------------------------------------------------------------------

namespace Dfa

/-- The word leads from the start to the state, and no lesser word does. -/
structure LeastWord (dfa : Dfa) (q : State) (word : List Char) : Prop where
  leads : dfa.run word = some q
  least : ∀ other, dfa.run other = some q → other = word ∨ WordLT word other

/-- Where any word leads to a state there is a least one, since words are well-founded. -/
theorem exists_leastWord {dfa : Dfa} {q : State} {word : List Char} (leads : dfa.run word = some q)
    : ∃ least, dfa.LeastWord q least := by
  obtain ⟨least, leads, none⟩ :=
    WordLT.wellFounded.has_min {word | dfa.run word = some q} ⟨word, leads⟩
  refine ⟨least, leads, fun other leads' => ?_⟩
  rcases trichotomous_of WordLT other least with lt | same | lt
  · exact absurd lt (none other leads')
  · exact Or.inl same
  · exact Or.inr lt

/-- The least word comes before all that come behind some word that leads there. -/
theorem LeastWord.lt {dfa : Dfa} {q : State} {least word other : List Char}
    (h : dfa.LeastWord q least) (leads : dfa.run word = some q) (lt : WordLT word other)
    : WordLT least other := by
  rcases h.least word leads with rfl | lt'
  · exact lt
  · exact lt'.trans lt

variable {nfa : Nfa} {label : String}

/-- To a state other than the sink lead the words that lead to the set with its number. -/
theorem run_ofNfa_eq_some_iff {q : State} (below : q < sinkNumber nfa) {word : List Char}
    : (ofNfa nfa label).run word = some q
      ↔ nfa.IsWord word ∧ (nfa.subsets nfa.closureTable)[q]? = some (nfa.reached word) := by
  constructor
  · intro leads
    have letters : nfa.IsWord word := by
      by_contra foreign
      rw [(tracks_ofNfa nfa label).foreign word foreign] at leads
      cases leads
    refine ⟨letters, ?_⟩
    rw [run_ofNfa letters, Option.some_inj] at leads
    have found : nfa.reached word ∈ nfa.subsets nfa.closureTable := by
      refine (Nfa.tracked_reached letters).resolve_right ?_
      intro empty
      rw [empty, numberOf_empty] at leads
      exact Nat.ne_of_gt below leads
    rw [← leads]
    exact getElem?_numberOf found
  · intro h
    obtain ⟨letters, found⟩ := h
    obtain ⟨bound, here⟩ := List.getElem?_eq_some_iff.mp found
    have number : numberOf nfa _ = q := (Nfa.nodup_subsets _ _).idxOf_getElem q bound
    rw [run_ofNfa letters, ← here, number]

/-- Some word leads to each number below the one of the sink, namely one that reaches its set. -/
theorem exists_run_ofNfa (label : String) {q : State} (below : q < sinkNumber nfa)
    : ∃ word, (ofNfa nfa label).run word = some q := by
  have found := List.getElem_mem below
  obtain ⟨_, word, letters, leads⟩ := Nfa.mem_subsets_iff_reached.mp found
  refine ⟨word, (run_ofNfa_eq_some_iff below).mpr ⟨letters, ?_⟩⟩
  rw [leads]
  exact List.getElem?_eq_getElem below

/-- States are numbered in the order of the least words that lead to them. -/
theorem exists_leastWords {i j : State} (lt : i < j) (below : j < sinkNumber nfa)
    : ∃ first second,
        (ofNfa nfa label).LeastWord i first
        ∧ (ofNfa nfa label).LeastWord j second
        ∧ WordLT first second := by
  have below' : i < sinkNumber nfa := Nat.lt_trans lt below
  obtain ⟨_, leads⟩ := exists_run_ofNfa label below'
  obtain ⟨_, leads'⟩ := exists_run_ofNfa label below
  obtain ⟨first, least⟩ := exists_leastWord leads
  obtain ⟨second, least'⟩ := exists_leastWord leads'
  refine ⟨first, second, least, least', ?_⟩
  obtain ⟨letters, found⟩ := (run_ofNfa_eq_some_iff below).mp least'.leads
  obtain ⟨lesser, letters', found', less⟩ := Nfa.exists_lesser_word lt found letters
  exact least.lt ((run_ofNfa_eq_some_iff below').mpr ⟨letters', found'⟩) less

-----------------------------------------------------------------------------------------
-- One row of transitions for each state
-----------------------------------------------------------------------------------------

/-- The transitions are stored by states, and those of a state by characters. -/
theorem map_key_rows (nfa : Nfa) (table : nfa.ClosureTable) (sets : List StateSet)
    : (rows nfa table sets).toList.map Transition.key
      = (List.range (sets.length + 1)).flatMap fun q =>
          nfa.alphabet.toList.map fun c => (q, c) := by
  have numbers : sets.zipIdx.map Prod.snd = List.range sets.length := by
    rw [List.zipIdx_map_snd, List.range_eq_range']
  rw [List.range_succ, List.flatMap_append, ← numbers, List.flatMap_map]
  simp [rows, List.map_flatMap, Function.comp_def, Transition.key]

/-- Each set and the sink have one transition for each character. -/
theorem size_rows (nfa : Nfa) (table : nfa.ClosureTable) (sets : List StateSet)
    : (rows nfa table sets).size = (sets.length + 1) * nfa.alphabet.toList.length := by
  have keys := congrArg List.length (map_key_rows nfa table sets)
  rw [List.length_map] at keys
  simpa [Transitions.size, List.length_flatMap] using keys

/-- A transition comes before another one by its state, and from the same state by its character. -/
def KeyLT (s t : Transition Char) : Prop :=
  s.source < t.source ∨ s.source = t.source ∧ s.symbol < t.symbol

/-- The rows stand in strictly ascending order of states and characters, because their states ascend
from row to row and their characters in each row.
-/
theorem pairwise_keyLT_rows (nfa : Nfa) (table : nfa.ClosureTable) (sets : List StateSet)
    : (rows nfa table sets).toList.Pairwise KeyLT := by
  have keys : ((rows nfa table sets).toList.map Transition.key).Pairwise
      fun a b => a.1 < b.1 ∨ a.1 = b.1 ∧ a.2 < b.2 := by
    rw [map_key_rows]
    refine List.pairwise_flatMap.mpr ⟨?_, ?_⟩
    · intro q _
      refine List.pairwise_map.mpr (nfa.alphabet.ascending.imp ?_)
      exact fun lt => Or.inr ⟨rfl, lt⟩
    · refine List.pairwise_lt_range.imp ?_
      intro p q lt a mem b mem'
      obtain ⟨_, _, rfl⟩ := List.mem_map.mp mem
      obtain ⟨_, _, rfl⟩ := List.mem_map.mp mem'
      exact Or.inl lt
  exact (List.pairwise_map.mp keys).imp id

/-- The form of the automata that the subset construction gives, with one state as their sink. -/
structure Canonical (dfa : Dfa) (sink : State) : Prop where
  start : dfa.start = 0
  states : dfa.states.toList = List.range (sink + 1)
  sinks : dfa.sinks = {sink}
  sinkRejects : sink ∉ dfa.finals
  sinkLoops : ∀ c ∈ dfa.alphabet, ⟨sink, c, sink⟩ ∈ dfa.transitions
  alphabet : dfa.alphabet.Pairwise (· < ·)
  sorted : dfa.transitions.toList.Pairwise KeyLT
  confined
    : ∀ t ∈ dfa.transitions,
        t.source ∈ dfa.states ∧ t.symbol ∈ dfa.alphabet ∧ t.target ∈ dfa.states
  complete : ∀ q ∈ dfa.states, ∀ c ∈ dfa.alphabet, ∃! r, ⟨q, c, r⟩ ∈ dfa.transitions
  deterministic : dfa.transitions.IsDeterministic
  size : dfa.transitions.size = dfa.stateCount * dfa.alphabet.length
  reachable : ∀ q ∈ dfa.states, q ≠ sink → ∃ word, dfa.run word = some q
  /-- The least words of the states in their order are ascending. -/
  numbered
    : ∀ i j,
        i < j
        → j < sink
        → ∃ first second,
            dfa.LeastWord i first ∧ dfa.LeastWord j second ∧ WordLT first second

/-- The states are the numbers up to the one of the sink. -/
theorem toList_states_ofNfa (nfa : Nfa) (label : String)
    : (ofNfa nfa label).states.toList = List.range (sinkNumber nfa + 1) := by
  have ascending : Ascending (List.range (sinkNumber nfa + 1)) := List.pairwise_lt_range
  exact congrArg SortedSet.toList (SortedSet.ofList_toList ⟨_, ascending⟩)

/-- No two transitions share a state and a character, for the rows are in strictly ascending order.
-/
theorem isDeterministic_ofNfa (nfa : Nfa) (label : String)
    : (ofNfa nfa label).transitions.IsDeterministic := by
  refine List.pairwise_map.mpr ((pairwise_keyLT_rows nfa _ _).imp ?_)
  intro s t lt same
  obtain ⟨source, symbol⟩ := Prod.mk.inj same
  rcases lt with lt | ⟨_, lt⟩
  · exact Nat.ne_of_lt lt source
  · exact Char.ne_of_lt lt symbol

/-- A state has one transition for each character of the alphabet. -/
theorem existsUnique_transition_ofNfa {q : State} {c : Char}
    (state : q ∈ (ofNfa nfa label).states) (letter : c ∈ nfa.alphabet)
    : ∃! r, ⟨q, c, r⟩ ∈ (ofNfa nfa label).transitions := by
  obtain ⟨r, stored⟩ := exists_transition_ofNfa state letter
  refine ⟨r, stored, fun s stored' => ?_⟩
  have same := List.inj_on_of_nodup_map (isDeterministic_ofNfa nfa label) stored' stored rfl
  exact congrArg Transition.target same

/-- The subset construction gives an automaton in canonical form, whatever automaton it starts from.
-/
theorem canonical_ofNfa (nfa : Nfa) (label : String)
    : (ofNfa nfa label).Canonical (sinkNumber nfa) where
  start := rfl
  states := toList_states_ofNfa nfa label
  sinks := rfl
  sinkRejects := fun final =>
    (ofNfa nfa label).not_mem_sinks_of_mem_finals _ final (SortedSet.mem_singleton.mpr rfl)
  sinkLoops := fun _ letter =>
    mem_rows.mpr ⟨SortedSet.mem_toList.mp letter, Or.inr ⟨rfl, rfl⟩⟩
  alphabet := nfa.alphabet.ascending
  sorted := pairwise_keyLT_rows nfa _ _
  confined := fun _ => of_mem_transitions_ofNfa
  complete := fun _ state _ => existsUnique_transition_ofNfa state
  deterministic := isDeterministic_ofNfa nfa label
  size := by
    rw [stateCount, toList_states_ofNfa, List.length_range]
    exact size_rows nfa _ _
  reachable := fun _ state other =>
    exists_run_ofNfa label (Nat.lt_of_le_of_ne (mem_states_ofNfa.mp state) other)
  numbered := fun _ _ => exists_leastWords

/-- Whenever the subset construction succeeds, its automaton has the same alphabet, one sink behind
all other states, one transition for each state and character, and its states numbered in the order
of discovery.
-/
theorem ofNfa?_canonical {nfa : Nfa} {label : String} {dfa : Dfa}
    (built : ofNfa? nfa label = some dfa)
    : dfa.alphabet = nfa.alphabet.toList ∧ ∃ sink, dfa.Canonical sink := by
  rw [eq_ofNfa_of_ofNfa? built]
  exact ⟨rfl, _, canonical_ofNfa nfa label⟩

/-- A repeated choice, with the greater character first. -/
theorem canonical_repeated_choice
    : ∃ dfa,
        ofNfa? (.ofRegex (.star (.union (.literal 'b') (.literal 'a')))) "WORD" = some dfa
        ∧ dfa.alphabet = ['a', 'b']
        ∧ ∃ sink, dfa.Canonical sink :=
  ⟨_, ofNfa?_ofRegex _ _, ofNfa?_canonical (ofNfa?_ofRegex _ _)⟩

end Dfa

end Munch
