import Munch.Proofs.CanonicalForm
import Munch.Proofs.ComparedScans
import Munch.Proofs.LexerReload
import Munch.Proofs.SinkStates

/-! Automata read back from their listings. A listing does not say which states are sinks, so they
are found anew: all states that lead to no final one, which may be more than the subset construction
had marked. Nothing more and nothing less is accepted then, and the tokens of a scan stay the same.
Yet an automaton drops out as soon as it is hopeless, so a scan that fails may do so earlier.
-/

namespace Munch

namespace Dfa

-----------------------------------------------------------------------------------------
-- One automaton
-----------------------------------------------------------------------------------------

/-- Finding the sinks anew changes no step. -/
theorem step_rebuilt (dfa : Dfa) : dfa.rebuilt.step = dfa.step := by
  funext q c
  rw [step_eq_head?, step_eq_head?]
  rfl

/-- Finding the sinks anew changes no run. -/
theorem run_rebuilt (dfa : Dfa) (word : List Char) : dfa.rebuilt.run word = dfa.run word := by
  rw [run, runFrom_eq_of_step_eq dfa.step_rebuilt]
  rfl

/-- Finding the sinks anew changes nothing about which words are accepted. -/
theorem accepts_rebuilt (dfa : Dfa) (word : List Char)
    : dfa.rebuilt.accepts word = dfa.accepts word := by
  rw [Bool.eq_iff_iff, accepts_iff_run, accepts_iff_run, run_rebuilt]
  rfl

/-- A run comes to no state but those that the parts mention. -/
theorem mem_states_of_run {dfa : Dfa} {word : List Char} {q : State}
    (h : dfa.run word = some q)
    : q ∈ dfa.rebuilt.states := by
  rcases List.eq_nil_or_concat word with rfl | ⟨word, c, rfl⟩
  · obtain rfl := Option.some.inj h
    exact SortedSet.mem_insert.mpr (Or.inl rfl)
  · rw [List.concat_eq_append, run_concat] at h
    obtain ⟨p, _, step⟩ := Option.bind_eq_some_iff.mp h
    rw [step_eq_head?] at step
    have stored := Transitions.mem_targets.mp (List.mem_of_mem_head? step)
    have target := Transitions.mem_states.mpr ⟨_, stored, Or.inr rfl⟩
    exact SortedSet.mem_insert.mpr (Or.inr (SortedSet.mem_union.mpr (Or.inl target)))

/-- A sink is found again, since it leads to sinks only and they are not final. -/
theorem isSink_rebuilt {dfa : Dfa} {q : State} (state : q ∈ dfa.rebuilt.states)
    (sink : dfa.isSink q = true)
    : dfa.rebuilt.isSink q = true := by
  refine isSink_iff.mpr (mem_unproductive.mpr ⟨state, ?_⟩)
  intro found
  obtain ⟨f, final, way⟩ := found
  exact dfa.not_mem_sinks_of_mem_finals f final (mem_sinks_of_reaches way (isSink_iff.mp sink))

/-- With its sinks found anew an automaton is alive no longer than before. -/
theorem alive_of_rebuilt {dfa : Dfa} {text : List Char} (h : dfa.rebuilt.Alive text)
    : dfa.Alive text := by
  have live {word : List Char} {q : State} (run : dfa.run word = some q)
      (live : dfa.rebuilt.isSink q = false)
      : dfa.isSink q = false := by
    rw [Bool.eq_false_iff] at *
    exact mt (isSink_rebuilt (mem_states_of_run run)) live
  obtain ⟨start, q, run, last⟩ := h
  rw [run_rebuilt] at run
  have begins : dfa.run [] = some dfa.start := rfl
  exact ⟨live begins start, q, run, live run last⟩

/-- The numbers of a determinized automaton are words if there are not more states than words. -/
theorem wordSized_ofNfa {nfa : Nfa} {label : String}
    (small : (ofNfa nfa label).stateCount ≤ Text.wordLimit)
    : (ofNfa nfa label).WordSized := by
  rw [stateCount, toList_states_ofNfa, List.length_range] at small
  have fits {q : State} (mentioned : q ∈ (ofNfa nfa label).rebuilt.states) : q < Text.wordLimit :=
    Nat.lt_of_lt_of_le
      (Nat.lt_succ_of_le (mem_states_ofNfa.mp (mem_states_of_mem_rebuilt mentioned))) small
  refine ⟨fits (SortedSet.mem_insert.mpr (Or.inl rfl)), fun q final => ?_, fun t stored => ?_⟩
  · exact fits (SortedSet.mem_insert.mpr (Or.inr (SortedSet.mem_union.mpr (Or.inr final))))
  · have mentioned {q : State} (ends : q = t.source ∨ q = t.target)
        : q ∈ (ofNfa nfa label).rebuilt.states := by
      have inTransition := Transitions.mem_states.mpr ⟨t, stored, ends⟩
      exact SortedSet.mem_insert.mpr (Or.inr (SortedSet.mem_union.mpr (Or.inl inTransition)))
    exact ⟨fits (mentioned (Or.inl rfl)), fits (mentioned (Or.inr rfl))⟩

end Dfa

-----------------------------------------------------------------------------------------
-- Scans
-----------------------------------------------------------------------------------------

/-- Finding the sinks anew changes nothing about which lexemes a text begins with. -/
theorem lexemeLengths_map_rebuilt (automata : List Dfa) (text : List Char)
    : lexemeLengths (automata.map .rebuilt) text = lexemeLengths automata text := by
  simp [lexemeLengths, Dfa.accepts_rebuilt]

/-- The first automaton that accepts the longest lexeme stays the first one. -/
theorem FirstToken.map_rebuilt {automata : List Dfa} {lexeme rest : List Char} {dfa : Dfa}
    (h : FirstToken automata lexeme rest dfa)
    : FirstToken (automata.map .rebuilt) lexeme rest dfa.rebuilt := by
  constructor
  · rw [lexemeLengths_map_rebuilt]
    exact h.longest
  · simp only [List.find?_map, Function.comp_def, Dfa.accepts_rebuilt, h.first, Option.map_some]

/-- The tokens stay the same, by induction on the rounds. -/
theorem tokens_scanFrom_map_rebuilt (automata : List Dfa) (position : Position)
    (text : List Char)
    : (scanFrom (automata.map .rebuilt) position text).tokens
      = (scanFrom automata position text).tokens := by
  induction text using munch_induction automata generalizing position with
  | done => simp only [scanFrom]
  | stuck c rest none =>
      obtain ⟨_, _, failed⟩ := scanFrom_of_empty none
      rw [← lexemeLengths_map_rebuilt] at none
      obtain ⟨_, _, failed'⟩ := scanFrom_of_empty none
      rw [failed, failed']
  | token lexeme rest dfa ahead ih =>
      rw [ahead.scanFrom_eq, ahead.map_rebuilt.scanFrom_eq, ih]
      rfl

/-- The failure is no later than before. -/
theorem failure_scanFrom_map_rebuilt (automata : List Dfa) (position : Position)
    (text : List Char)
    : Option.Rel ScanError.NoLater (scanFrom (automata.map .rebuilt) position text).failure
        (scanFrom automata position text).failure := by
  refine failure_scanFrom_noLater (lexemeLengths_map_rebuilt automata) (fun front => ?_) position
    text
  intro living
  obtain ⟨again, mem, alive⟩ := living
  obtain ⟨dfa, given, rfl⟩ := List.mem_map.mp mem
  exact ⟨dfa, given, Dfa.alive_of_rebuilt alive⟩

/-- Both scans give the same tokens, or both fail, and with the sinks found anew no later. -/
theorem scan_map_rebuilt (automata : List Dfa) (input : List Char)
    : (∃ tokens,
          scan automata input = .ok tokens ∧ scan (automata.map .rebuilt) input = .ok tokens)
      ∨ ∃ error error',
          scan automata input = .error error
          ∧ scan (automata.map .rebuilt) input = .error error'
          ∧ error'.NoLater error := by
  by_cases none : automata = []
  · subst none
    rw [List.map_nil]
    cases input with
    | nil => exact Or.inl ⟨[], rfl, rfl⟩
    | cons c rest => exact Or.inr ⟨.noRules, .noRules, rfl, rfl, .noRules⟩
  · have none' : automata.map Dfa.rebuilt ≠ [] := mt List.map_eq_nil_iff.mp none
    have tokens := tokens_scanFrom_map_rebuilt automata (.behind []) input
    have failure := failure_scanFrom_map_rebuilt automata (.behind []) input
    simp only [scan, scanAll_eq_scanFrom none, scanAll_eq_scanFrom none']
    generalize scanFrom automata (.behind []) input = scanned at tokens failure ⊢
    generalize scanFrom (automata.map .rebuilt) (.behind []) input = scanned' at tokens failure ⊢
    obtain ⟨found, error⟩ := scanned
    obtain ⟨found', error'⟩ := scanned'
    obtain rfl : found' = found := tokens
    cases failure with
    | none => exact Or.inl ⟨found', rfl, rfl⟩
    | some noLater => exact Or.inr ⟨_, _, rfl, rfl, noLater⟩

/-- Automata of the subset construction that have a final state and a label that fits on a line come
back from their listings, and scans with them give the same tokens as before. A scan that met a
character behind which nothing was possible meets one there or earlier; one that comes to the end of
the text in the middle of a lexeme did so before, too.
-/
theorem scan_reread {sources : List (Nfa × String)} {automata : List Dfa}
    (built
      : List.Forall₂ (fun source dfa => Dfa.ofNfa? source.1 source.2 = some dfa) sources automata)
    (legible : ∀ dfa ∈ automata, dfa.Legible)
    (small : ∀ dfa ∈ automata, dfa.stateCount ≤ Text.wordLimit)
    : ∃ again,
        automata.mapM (fun dfa => Dfa.ofListing dfa.listing) = .ok again
        ∧ ∀ input,
            (∀ tokens, scan automata input = .ok tokens ↔ scan again input = .ok tokens)
            ∧ (∀ character line,
                scan automata input = .error (.noViableAlternative character line)
                → ∃ character' ≤ character, ∃ line' ≤ line,
                    scan again input = .error (.noViableAlternative character' line'))
            ∧ ∀ line,
                scan again input = .error (.unexpectedEnd line)
                → scan automata input = .error (.unexpectedEnd line) := by
  have read : automata.mapM (fun dfa => Dfa.ofListing dfa.listing)
      = .ok (automata.map .rebuilt) := by
    rw [mapM_eq_ok_iff, List.forall₂_map_right_iff, List.forall₂_same]
    intro dfa mem
    obtain ⟨source, _, own⟩ := exists_mem_of_forall₂ built.flip mem
    obtain ⟨whole, stop, final⟩ := legible dfa mem
    have sized := small dfa mem
    rw [Dfa.eq_ofNfa_of_ofNfa? own] at whole stop final sized ⊢
    exact (Dfa.ofListing_listing_eq_ok_iff (Dfa.wordSized_ofNfa sized) whole stop).mpr
      ⟨final, rfl⟩
  refine ⟨_, read, fun input => ?_⟩
  rcases scan_map_rebuilt automata input with
    ⟨tokens, scanned, scanned'⟩ | ⟨error, error', failed, failed', noLater⟩
  · simp [scanned, scanned']
  · cases noLater with
    | places characters lines => simp [failed, failed', characters, lines]
    | beforeEnd | atEnd | noRules => simp [failed, failed']

/-- Reads `a` and accepts, or reads `b` any number of times and can accept no more. -/
def hopelessBranch : Nfa where
  alphabet := .ofList ['a', 'b']
  stateCount := 3
  start := 0
  accept := 1
  transitions := ⟨[⟨0, .char 'a', 1⟩, ⟨0, .char 'b', 2⟩, ⟨2, .char 'b', 2⟩]⟩

namespace hopelessBranch

/-- The automaton has three transitions. -/
theorem mem_transitions {p q : State} {symbol : Symbol}
    : ⟨p, symbol, q⟩ ∈ hopelessBranch.transitions
      ↔ p = 0 ∧ symbol = .char 'a' ∧ q = 1 ∨ p = 0 ∧ symbol = .char 'b' ∧ q = 2
        ∨ p = 2 ∧ symbol = .char 'b' ∧ q = 2 := by
  simp [hopelessBranch, ← Transitions.mem_toList]

/-- Its words are made of the two letters. -/
theorem isWord_iff {word : List Char}
    : hopelessBranch.IsWord word ↔ ∀ c ∈ word, c = 'a' ∨ c = 'b' := by
  simp [Nfa.IsWord, hopelessBranch]

/-- Without silent transitions a state has nothing but itself in its closure. -/
theorem closure_eq (p : State) : hopelessBranch.closure p = {p} := by
  ext q
  rw [Nfa.mem_closure, SortedSet.mem_singleton]
  constructor
  · intro way
    cases way with
    | refl => rfl
    | step first _ => simpa using mem_transitions.mp (Nfa.mem_targets.mp first)
  · rintro rfl
    exact .refl q

/-- Where four words lead that stand for all sets that are found and for the sink. -/
theorem reached_eq
    : hopelessBranch.reached ['a'] = {1} ∧ hopelessBranch.reached ['b'] = {2}
      ∧ hopelessBranch.reached ['b', 'b'] = {2} ∧ hopelessBranch.reached ['b', 'b', 'a'] = ∅ := by
  have advance
      : hopelessBranch.advance {0} 'a' = {1} ∧ hopelessBranch.advance {0} 'b' = {2}
        ∧ hopelessBranch.advance {2} 'b' = {2} ∧ hopelessBranch.advance {2} 'a' = ∅ := by
    simp [SortedSet.ext_iff, Nfa.mem_advance, mem_transitions, closure_eq]
  have start : hopelessBranch.closure hopelessBranch.start = {0} := closure_eq 0
  simp [Nfa.reached, Nfa.reach, start, advance]

/-- No transition leads out of the states that the automaton owns, so it is determinized. -/
theorem ofNfa?_eq (label : String)
    : Dfa.ofNfa? hopelessBranch label = some (.ofNfa hopelessBranch label) := by
  have kept : ¬hopelessBranch.GoesAstray := by
    intro astray
    obtain start | ⟨_, _, p, _, c, _, q, mem, out⟩ := astray
    · exact absurd start (by decide)
    · rcases mem_transitions.mp mem with ⟨_, _, rfl⟩ | ⟨_, _, rfl⟩ | ⟨_, _, rfl⟩ <;>
        exact absurd out (by decide)
  obtain ⟨dfa, built⟩ := Option.ne_none_iff_exists'.mp (mt Dfa.ofNfa?_eq_none_iff.mp kept)
  rw [built, Dfa.eq_ofNfa_of_ofNfa? built]

/-- With few states, all of its numbers are words. -/
theorem stateCount_le (label : String)
    : (Dfa.ofNfa hopelessBranch label).stateCount ≤ Text.wordLimit := by
  have sets := Nat.le_of_lt (hopelessBranch.length_subsets_lt hopelessBranch.closureTable)
  have states
      : (hopelessBranch.transitions.states.insert hopelessBranch.start).toList.length = 3 := by
    decide
  rw [states] at sets
  rw [Dfa.stateCount, Dfa.toList_states_ofNfa, List.length_range, Dfa.sinkNumber]
  exact Nat.le_trans (Nat.succ_le_succ sets) (by decide)

/-- The automaton has a label on one line, and it has a final state. -/
theorem legible : (Dfa.ofNfa hopelessBranch "A").Legible := by
  refine ⟨by decide, by decide, fun none => ?_⟩
  have final := (Dfa.tracks_ofNfa hopelessBranch "A").final_iff ['a'] (isWord_iff.mpr (by simp))
  rw [Nfa.mem_statesAfter, reached_eq.1, none] at final
  simp [hopelessBranch] at final

/-- Nothing is accepted behind `b`, and the scan goes on to the `a`. -/
theorem scan_eq
    : scan [.ofNfa hopelessBranch "A"] ['b', 'b', 'a'] = .error (.noViableAlternative 2 0) := by
  have alive (text : List Char)
      : (Dfa.ofNfa hopelessBranch "A").Alive text ↔ hopelessBranch.IsWord text ∧ _ :=
    Dfa.alive_ofNfa
  have accept : hopelessBranch.accept = 1 := rfl
  refine (scan_eq_iff_cuts (List.cons_ne_nil _ _) _ _).mpr (.hopeless (by decide) ?_ ⟨?_, ?_⟩)
  · apply Set.eq_empty_of_forall_notMem
    intro k length
    obtain ⟨least, most, dfa, mem, accepted⟩ := length
    obtain rfl := List.mem_singleton.mp mem
    have places : k = 1 ∨ k = 2 ∨ k = 3 := by
      simp at most
      omega
    rcases places with rfl | rfl | rfl <;>
      simp [Dfa.accepts_ofNfa, reached_eq, accept] at accepted
  · refine ⟨by decide, by decide, fun dfa mem living => ?_⟩
    obtain rfl := List.mem_singleton.mp mem
    exact ((alive _).mp living).2 reached_eq.2.2.2
  · intro c hopeless
    obtain ⟨_, _, none⟩ := hopeless
    have dead := none _ (List.mem_singleton.mpr rfl)
    rw [alive, isWord_iff] at dead
    by_contra earlier
    have places : c = 0 ∨ c = 1 := by omega
    rcases places with rfl | rfl <;>
      exact dead ⟨by simp, by simp [reached_eq, SortedSet.ext_iff]⟩

end hopelessBranch

/-- The subset construction marks no sink behind `b`, so the scan fails at the `a`; once the
automaton has been listed it fails there or earlier.
-/
theorem scan_reread_hopelessBranch
    : Dfa.ofNfa? hopelessBranch "A" = some (.ofNfa hopelessBranch "A")
      ∧ (Dfa.ofNfa hopelessBranch "A").Legible
      ∧ (Dfa.ofNfa hopelessBranch "A").stateCount ≤ Text.wordLimit
      ∧ scan [.ofNfa hopelessBranch "A"] ['b', 'b', 'a'] = .error (.noViableAlternative 2 0)
      ∧ ∃ again,
          [Dfa.ofNfa hopelessBranch "A"].mapM (fun dfa => Dfa.ofListing dfa.listing) = .ok again
          ∧ ∃ character ≤ 2, ∃ line ≤ 0,
              scan again ['b', 'b', 'a'] = .error (.noViableAlternative character line) := by
  have built : List.Forall₂ (fun (source : Nfa × String) dfa =>
      Dfa.ofNfa? source.1 source.2 = some dfa) [(hopelessBranch, "A")] [_] :=
    .cons (hopelessBranch.ofNfa?_eq "A") .nil
  obtain ⟨again, read, same⟩ :=
    scan_reread built (List.forall_mem_singleton.mpr hopelessBranch.legible)
      (List.forall_mem_singleton.mpr (hopelessBranch.stateCount_le "A"))
  exact ⟨hopelessBranch.ofNfa?_eq "A", hopelessBranch.legible, hopelessBranch.stateCount_le "A",
    hopelessBranch.scan_eq, again, read, (same _).2.1 _ _ hopelessBranch.scan_eq⟩

end Munch
