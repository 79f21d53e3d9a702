import Mathlib.Tactic.Common
import Munch.Proofs.Lockstep

/-! Scanning against its reference. At each position the reference looks at all beginnings of the
remaining text, takes the longest one that some automaton accepts, and goes on behind it; where
there is none, it looks for the first character behind which no automaton is alive.
-/

namespace Munch

/-- The lengths of the beginnings of a text that some automaton accepts, without the empty one. -/
def lexemeLengths (automata : List Dfa) (text : List Char) : Set Nat :=
  {k | 1 ≤ k ∧ k ≤ text.length ∧ ∃ dfa ∈ automata, dfa.accepts (text.take k) = true}

/-- The characters of an input behind which no automaton is alive that began at the position. -/
def hopelessPlaces (automata : List Dfa) (input : List Char) (position : Nat) : Set Nat :=
  {c | position ≤ c
    ∧ c < input.length
    ∧ ∀ dfa ∈ automata, ¬dfa.Alive ((input.take (c + 1)).drop position)}

/-- What maximal munch makes of an input from a position on. -/
inductive Cuts (automata : List Dfa) (input : List Char)
    : Nat → Except ScanError (List Token) → Prop
  | consumed : Cuts automata input input.length (.ok [])
  | token {position length : Nat} {dfa : Dfa} {outcome : Except ScanError (List Token)}
    (longest : IsGreatest (lexemeLengths automata (input.drop position)) length)
    (first : automata.find? (·.accepts ((input.drop position).take length)) = some dfa)
    (rest : Cuts automata input (position + length) outcome)
    : Cuts automata input position
        (outcome.map (⟨dfa.label, .ofList ((input.drop position).take length)⟩ :: ·))
  | hopeless {position character : Nat} (more : position < input.length)
    (none : lexemeLengths automata (input.drop position) = ∅)
    (least : IsLeast (hopelessPlaces automata input position) character)
    : Cuts automata input position
        (.error (.noViableAlternative character ((input.take character).count '\n')))
  | unfinished {position : Nat} (more : position < input.length)
    (none : lexemeLengths automata (input.drop position) = ∅)
    (alive : ∃ dfa ∈ automata, dfa.Alive (input.drop position))
    : Cuts automata input position (.error (.unexpectedEnd (input.dropLast.count '\n')))

-----------------------------------------------------------------------------------------
-- One round
-----------------------------------------------------------------------------------------

/-- A place is one less than the length of the beginning that is accepted there. -/
theorem mem_lexemeLengths {automata : List Dfa} {text : List Char} {i : Nat}
    : i + 1 ∈ lexemeLengths automata text ↔ ∃ dfa ∈ automata, i ∈ dfa.acceptPlaces text := by
  constructor
  · intro length
    obtain ⟨_, within, dfa, mem, accepted⟩ := length
    exact ⟨dfa, mem, within, accepted⟩
  · intro place
    obtain ⟨dfa, mem, within, accepted⟩ := place
    exact ⟨Nat.succ_pos i, within, dfa, mem, accepted⟩

namespace Round

/-- The round has come to its end in the text. -/
structure Ended (round : Round) (automata : List Dfa) (text : List Char) : Prop where
  reached : round.Reached automata text
  atEnd : round.isOver = false → round.index + 1 = text.length

variable {round : Round} {automata : List Dfa} {text : List Char}

/-- A round that is run comes to its end in the text. -/
theorem ended_run (automata : List Dfa) (c : Char) (rest : List Char)
    : (run (automata.map .start) 0 c rest).Ended automata (c :: rest) := by
  obtain ⟨reached, atEnd⟩ := reached_run (reached_start automata c rest) rfl
  exact ⟨reached, atEnd⟩

/-- Each runner remembers the last place that its automaton has in the whole text. -/
theorem Ended.last (h : round.Ended automata text) {runner : Runner}
    (mem : runner ∈ round.runners)
    : Runner.Last (runner.dfa.acceptPlaces text) runner.lastAccept := by
  have present : runner.dfa ∈ automata := by
    rw [← h.reached.dfas]
    exact List.mem_map_of_mem mem
  rw [← h.reached.acceptPlaces_eq h.atEnd present]
  exact (h.reached.follows runner mem).last

/-- Wherever an automaton accepts in the text, its runner has a last place that is no earlier. -/
theorem Ended.exists_le (h : round.Ended automata text) {runner : Runner}
    (mem : runner ∈ round.runners) {i : Nat} (place : i ∈ runner.dfa.acceptPlaces text)
    : ∃ last ∈ runner.lastAccept, i ≤ last := by
  have latest := h.last mem
  cases found : runner.lastAccept with
  | none =>
      rw [found, Runner.Last] at latest
      rw [latest] at place
      exact place.elim
  | some last =>
      rw [found] at latest
      exact ⟨last, rfl, latest.2 place⟩

/-- The round is over exactly if no automaton is alive after the whole text. -/
theorem Ended.isOver_iff (h : round.Ended automata text)
    : round.isOver = true ↔ ¬∃ dfa ∈ automata, dfa.Alive text := by
  constructor
  · intro finished living
    obtain ⟨dfa, mem, alive⟩ := living
    rw [← List.take_append_drop (round.index + 1) text] at alive
    exact h.reached.isOver_iff.mp finished dfa mem alive.of_append
  · intro none
    by_contra running
    have atEnd := h.atEnd (Bool.eq_false_iff.mpr running)
    have finished := h.reached.isOver_iff
    rw [atEnd, List.take_length] at finished
    exact running (finished.mpr fun dfa mem alive => none ⟨dfa, mem, alive⟩)

/-- A round that is not over has come to the last character. -/
theorem Ended.take_eq_dropLast (h : round.Ended automata text) (running : round.isOver = false)
    : text.take round.index = text.dropLast := by
  rw [List.dropLast_eq_take, ← h.atEnd running, Nat.add_sub_cancel]

/-- No beginning that is accepted goes beyond the last places of all runners. -/
theorem Ended.exists_last (h : round.Ended automata text) {k : Nat}
    (accepted : k ∈ lexemeLengths automata text)
    : ∃ runner ∈ round.runners, ∃ last ∈ runner.lastAccept, k ≤ last + 1 := by
  obtain ⟨i, rfl⟩ : ∃ i, k = i + 1 := Nat.exists_eq_succ_of_ne_zero (Nat.ne_of_gt accepted.1)
  obtain ⟨dfa, mem, place⟩ := mem_lexemeLengths.mp accepted
  rw [← h.reached.dfas] at mem
  obtain ⟨runner, present, rfl⟩ := List.mem_map.mp mem
  obtain ⟨last, found, le⟩ := h.exists_le present place
  exact ⟨runner, present, last, found, Nat.succ_le_succ le⟩

/-- Without a winner no automaton accepts anything. -/
theorem Ended.lexemeLengths_eq_empty (h : round.Ended automata text)
    (lost : round.winner? = none)
    : lexemeLengths automata text = ∅ := by
  have leads := round.leads_winner
  rw [lost] at leads
  apply Set.eq_empty_of_forall_notMem
  intro k accepted
  obtain ⟨runner, present, last, found, _⟩ := h.exists_last accepted
  rw [leads runner present] at found
  cases found

/-- The winner accepts the longest lexeme, and no automaton before it does. -/
theorem Ended.winner (h : round.Ended automata text) {dfa : Dfa} {last : Nat}
    (won : round.winner? = some (dfa, last))
    : IsGreatest (lexemeLengths automata text) (last + 1)
      ∧ automata.find? (·.accepts (text.take (last + 1))) = some dfa := by
  have leads := round.leads_winner
  rw [won] at leads
  have furthest := leads.le
  obtain ⟨front, runner, back, parted, rfl, found, before, _⟩ := leads
  have mem : runner ∈ round.runners := by simp [parted]
  have latest := h.last mem
  rw [found] at latest
  obtain ⟨within, accepted⟩ := latest.1
  have order : automata
      = front.map Runner.dfa ++ runner.dfa :: back.map Runner.dfa := by
    simp [← h.reached.dfas, parted]
  refine ⟨⟨mem_lexemeLengths.mpr ⟨runner.dfa, by simp [order], latest.1⟩, ?_⟩, ?_⟩
  · intro k longer
    obtain ⟨other, present, j, found', le⟩ := h.exists_last longer
    exact Nat.le_trans le (Nat.succ_le_succ (furthest other present j found'))
  · apply List.find?_eq_some_iff_append.mpr
    refine ⟨accepted, _, _, order, ?_⟩
    intro dfa mem
    obtain ⟨other, early, rfl⟩ := List.mem_map.mp mem
    rw [Bool.not_eq_true']
    apply Bool.eq_false_iff.mpr
    intro accepted'
    obtain ⟨j, found', le⟩ := h.exists_le (by simp [parted, early]) ⟨within, accepted'⟩
    exact absurd (before other early j found') (Nat.not_lt.mpr le)

end Round

-----------------------------------------------------------------------------------------
-- All rounds
-----------------------------------------------------------------------------------------

/-- The position behind some text. -/
def Position.behind (text : List Char) : Position :=
  ⟨text.length, text.count '\n'⟩

/-- Behind two texts is behind the second one, where the first one ends. -/
theorem Position.after_behind (front back : List Char)
    : (behind front).after back = behind (front ++ back) := by
  simp [behind, after]

/-- One more token in front changes nothing about whether a scan fails. -/
theorem Scanned.result_cons (token : Token) (scanned : Scanned)
    : result { scanned with tokens := token :: scanned.tokens }
      = scanned.result.map (token :: ·) := by
  unfold result
  cases scanned.failure <;> rfl

/-- What stands in two texts behind the first one, up to some length, stands in the second one up to
that length.
-/
theorem drop_take_append (front text : List Char) (i : Nat)
    : ((front ++ text).take (front.length + i)).drop front.length = text.take i := by
  rw [List.take_length_add_append, List.drop_left]

/-- A round that is over names the first character behind which no automaton is alive. -/
theorem isLeast_hopelessPlaces {round : Round} {automata : List Dfa} {front text : List Char}
    (h : round.Reached automata text) (finished : round.isOver = true)
    : IsLeast (hopelessPlaces automata (front ++ text) front.length)
        (front.length + round.index) := by
  have within := h.within
  constructor
  · refine ⟨Nat.le_add_right _ _, by rw [List.length_append]; omega, ?_⟩
    rw [Nat.add_assoc, drop_take_append]
    exact h.isOver_iff.mp finished
  · intro c hopeless
    obtain ⟨le, _, none⟩ := hopeless
    obtain ⟨i, rfl⟩ := Nat.exists_eq_add_of_le le
    by_contra earlier
    obtain ⟨dfa, mem, alive⟩ := h.before i (by omega)
    rw [Nat.add_assoc, drop_take_append] at none
    exact none dfa mem alive

/-- A round without a winner ends with the error of the reference. -/
theorem cuts_failure {round : Round} {automata : List Dfa} {front text : List Char}
    (h : round.Ended automata text) (lost : round.winner? = none)
    : Cuts automata (front ++ text) front.length
        (.error (round.failure (.behind front) text)) := by
  have within := h.reached.within
  have more : front.length < (front ++ text).length := by
    rw [List.length_append]
    omega
  have none : lexemeLengths automata ((front ++ text).drop front.length) = ∅ := by
    rw [List.drop_left]
    exact h.lexemeLengths_eq_empty lost
  rw [Round.failure, Position.after_behind]
  cases finished : round.isOver with
  | true =>
      have least := @isLeast_hopelessPlaces round automata front text h.reached finished
      have error := Cuts.hopeless more none least
      rw [List.take_length_add_append] at error
      have length : (front ++ text.take round.index).length = front.length + round.index := by
        rw [List.length_append, List.length_take_of_le (Nat.le_of_lt within)]
      simpa [Position.behind, length] using error
  | false =>
      have last := h.take_eq_dropLast finished
      have alive : ∃ dfa ∈ automata, dfa.Alive ((front ++ text).drop front.length) := by
        rw [List.drop_left]
        by_contra none
        rw [h.isOver_iff.mpr none] at finished
        cases finished
      have error := Cuts.unfinished more none alive
      rw [List.dropLast_append_of_ne_nil (List.ne_nil_of_length_pos (Nat.zero_lt_of_lt within)),
        ← last] at error
      simpa [Position.behind] using error

/-- A scan that has come to some text does as the reference does from there on, by induction on the
length of the text.
-/
theorem cuts_scanFrom (automata : List Dfa) (front text : List Char)
    : Cuts automata (front ++ text) front.length
        (scanFrom automata (.behind front) text).result := by
  cases text with
  | nil =>
      rw [List.append_nil, scanFrom]
      exact .consumed
  | cons c rest =>
      have ended := Round.ended_run automata c rest
      rw [scanFrom]
      cases won : (Round.run (automata.map .start) 0 c rest).winner? with
      | none =>
          exact cuts_failure ended won
      | some winner =>
          obtain ⟨dfa, last⟩ := winner
          obtain ⟨longest, first⟩ := ended.winner won
          have parted := List.take_append_drop (last + 1) (c :: rest)
          have length : (front ++ (c :: rest).take (last + 1)).length
              = front.length + (last + 1) := by
            rw [List.length_append, List.length_take_of_le longest.1.2.1]
          have onward := cuts_scanFrom automata (front ++ (c :: rest).take (last + 1))
            ((c :: rest).drop (last + 1))
          rw [List.append_assoc, parted, length] at onward
          simp only [Position.after_behind, Scanned.result_cons]
          have token := @Cuts.token automata (front ++ c :: rest) front.length (last + 1) dfa _
            (by rwa [List.drop_left]) (by rwa [List.drop_left]) onward
          rwa [List.drop_left] at token
termination_by text.length
decreasing_by
  subst_vars
  simp only [List.drop_succ_cons, List.length_drop, List.length_cons]
  omega

/-- With automata a scan is that of the text from its beginning, for the empty input as well. -/
theorem scanAll_eq_scanFrom {automata : List Dfa} (some : automata ≠ []) (input : List Char)
    : scanAll automata input = scanFrom automata (.behind []) input := by
  cases input with
  | nil =>
      rw [scanFrom]
      rfl
  | cons c rest =>
      have nonempty : automata.isEmpty = false := by simpa using some
      rw [scanAll, List.isEmpty_cons, if_neg Bool.false_ne_true, nonempty,
        if_neg Bool.false_ne_true]
      rfl

/-- A scan of any input gives what maximal munch makes of it. -/
theorem cuts_scan {automata : List Dfa} (some : automata ≠ []) (input : List Char)
    : Cuts automata input 0 (scan automata input) := by
  rw [scan, scanAll_eq_scanFrom some]
  exact cuts_scanFrom automata [] input

-----------------------------------------------------------------------------------------
-- The reference determines the outcome
-----------------------------------------------------------------------------------------

/-- Where there is a longest lexeme, there is a character left. -/
theorem Cuts.position_lt {automata : List Dfa} {input : List Char} {position length : Nat}
    (longest : IsGreatest (lexemeLengths automata (input.drop position)) length)
    : position < input.length := by
  obtain ⟨some, within, _⟩ := longest.1
  rw [List.length_drop] at within
  omega

/-- Where there are no lexemes, none of them is the longest. -/
theorem not_isGreatest_of_empty {automata : List Dfa} {text : List Char} {length : Nat}
    (none : lexemeLengths automata text = ∅)
    : ¬IsGreatest (lexemeLengths automata text) length := by
  intro longest
  rw [none] at longest
  exact longest.1

/-- Where there is a hopeless place, no automaton is alive at the end of the input: one that is has
been alive at every place.
-/
theorem not_alive_of_hopeless {automata : List Dfa} {input : List Char}
    {position character : Nat} (h : character ∈ hopelessPlaces automata input position)
    : ¬∃ dfa ∈ automata, dfa.Alive (input.drop position) := by
  obtain ⟨_, _, none⟩ := h
  intro alive
  obtain ⟨dfa, mem, alive⟩ := alive
  rw [← List.take_append_drop (character + 1 - position) (input.drop position)] at alive
  apply none dfa mem
  rw [List.drop_take]
  exact alive.of_append

/-- The reference has one outcome from each position, by induction on its tokens. -/
theorem Cuts.unique {automata : List Dfa} {input : List Char} {position : Nat}
    {outcome other : Except ScanError (List Token)} (h : Cuts automata input position outcome)
    (h' : Cuts automata input position other)
    : outcome = other := by
  induction h generalizing other with
  | consumed =>
      cases h' with
      | consumed => rfl
      | token longest => exact absurd (position_lt longest) (Nat.lt_irrefl _)
      | hopeless more | unfinished more => exact absurd more (Nat.lt_irrefl _)
  | @token position length dfa outcome longest first _ ih =>
      cases h' with
      | consumed => exact absurd (position_lt longest) (Nat.lt_irrefl _)
      | token longest' first' rest' =>
          obtain rfl := longest.unique longest'
          obtain rfl := Option.some.inj (first.symm.trans first')
          rw [ih rest']
      | hopeless _ none | unfinished _ none => exact absurd longest (not_isGreatest_of_empty none)
  | hopeless more none least =>
      cases h' with
      | consumed => exact absurd more (Nat.lt_irrefl _)
      | token longest => exact absurd longest (not_isGreatest_of_empty none)
      | hopeless _ _ least' => rw [least.unique least']
      | unfinished _ _ alive => exact absurd alive (not_alive_of_hopeless least.1)
  | unfinished more none alive =>
      cases h' with
      | consumed => exact absurd more (Nat.lt_irrefl _)
      | token longest => exact absurd longest (not_isGreatest_of_empty none)
      | hopeless _ _ least => exact absurd alive (not_alive_of_hopeless least.1)
      | unfinished => rfl

/-- Scanning with some automata does what the reference does, and nothing else. -/
theorem scan_eq_iff_cuts {automata : List Dfa} (some : automata ≠ []) (input : List Char)
    (outcome : Except ScanError (List Token))
    : scan automata input = outcome ↔ Cuts automata input 0 outcome := by
  constructor
  · intro h
    rw [← h]
    exact cuts_scan some input
  · intro h
    exact (cuts_scan some input).unique h

/-- An automaton for the letter `a` cuts `aa` into two tokens, and of `ab` it rejects the `b`. -/
theorem cuts_single_letter
    : ∃ dfa : Dfa,
        dfa.transitions = ⟨[⟨0, 'a', 1⟩]⟩
        ∧ dfa.finals = .ofList [1]
        ∧ Cuts [dfa] ['a', 'a'] 0 (.ok [⟨dfa.label, "a"⟩, ⟨dfa.label, "a"⟩])
        ∧ Cuts [dfa] ['a', 'b'] 0 (.error (.noViableAlternative 1 0)) := by
  let dfa : Dfa := {
    alphabet := ['a'], label := "A", start := 0, finals := .ofList [1],
    states := .ofList [0, 1], transitions := ⟨[⟨0, 'a', 1⟩]⟩, sinks := ∅,
    target_mem_sinks := fun _ _ sink => absurd sink (SortedSet.not_mem_empty _),
    not_mem_sinks_of_mem_finals := fun _ _ => SortedSet.not_mem_empty _
  }
  have start : dfa.start = 0 := rfl
  have live (q : State) : dfa.isSink q = false := rfl
  have final : dfa.isFinal 1 = true := rfl
  have step (q : State) (c : Char)
      : dfa.step q c = if 0 = q ∧ 'a' = c then some 1 else none := by
    rw [Dfa.step_eq_head?]
    by_cases here : 0 = q ∧ 'a' = c <;> simp [dfa, Transitions.targets, Transition.key, here]
  refine ⟨dfa, rfl, rfl, ?_⟩
  clear_value dfa
  have nonempty : [dfa] ≠ [] := List.cons_ne_nil _ _
  refine ⟨(scan_eq_iff_cuts nonempty _ _).mp ?_, (scan_eq_iff_cuts nonempty _ _).mp ?_⟩ <;>
    simp [scan, scanAll, scanFrom, Round.run, Runner.start, Runner.feed, Round.isOver,
      Round.winner?, Runner.best, Scanned.result, Round.failure, Position.after, start, live,
      final, step]

end Munch
