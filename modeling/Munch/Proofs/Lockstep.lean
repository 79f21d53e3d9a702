import Mathlib.Tactic.Common
import Mathlib.Order.Bounds.Basic
import Munch.Lexer.Scan

/-! Automata in lockstep. After each character of a round, a runner has dropped out exactly if the
run of its automaton has met a sink or stopped, and it remembers the greatest place behind which its
automaton accepts. So the round ends at the first character at which no automaton is alive, or at
the last one, and has found the longest lexeme.
-/

namespace Munch

-----------------------------------------------------------------------------------------
-- Automata that have not met a sink
-----------------------------------------------------------------------------------------

namespace Dfa

/-- The automaton neither starts in a sink nor has come to one with the text, and it has read the
whole text.
-/
def Alive (dfa : Dfa) (text : List Char) : Prop :=
  dfa.isSink dfa.start = false ∧ ∃ state, dfa.run text = some state ∧ dfa.isSink state = false

/-- A step from a sink leads to a sink, since no stored transition leaves the sinks. -/
theorem isSink_of_step {dfa : Dfa} {state next : State} {c : Char}
    (h : dfa.step state c = some next) (sink : dfa.isSink state = true)
    : dfa.isSink next = true := by
  rw [step_eq_head?] at h
  have stored : (⟨state, c, next⟩ : Transition Char) ∈ dfa.transitions :=
    Transitions.mem_targets.mp (List.mem_of_mem_head? h)
  exact isSink_iff.mpr (dfa.target_mem_sinks _ stored (isSink_iff.mp sink))

/-- No run leaves the sinks, by induction on the text. -/
theorem isSink_of_runFrom {dfa : Dfa} {state last : State} {text : List Char}
    (h : dfa.runFrom state text = some last) (sink : dfa.isSink state = true)
    : dfa.isSink last = true := by
  induction text generalizing state with
  | nil =>
      obtain rfl := Option.some.inj h
      exact sink
  | cons c text ih =>
      rw [runFrom] at h
      obtain ⟨next, step, rest⟩ := Option.bind_eq_some_iff.mp h
      exact ih rest (isSink_of_step step sink)

/-- Before the first character an automaton is alive unless it starts in a sink. -/
theorem alive_nil {dfa : Dfa} : dfa.Alive [] ↔ dfa.isSink dfa.start = false := by
  constructor
  · intro h
    exact h.1
  · intro h
    exact ⟨h, dfa.start, rfl, h⟩

/-- An automaton that is alive behind a text has been alive all the way, because no run comes back
from a sink.
-/
theorem Alive.of_append {dfa : Dfa} {front back : List Char} (h : dfa.Alive (front ++ back))
    : dfa.Alive front := by
  obtain ⟨start, last, run, live⟩ := h
  rw [Dfa.run, runFrom_append] at run
  obtain ⟨state, first, rest⟩ := Option.bind_eq_some_iff.mp run
  refine ⟨start, state, first, Bool.eq_false_iff.mpr fun sink => ?_⟩
  rw [isSink_of_runFrom rest sink] at live
  cases live

/-- The same for beginnings of given lengths. -/
theorem Alive.take {dfa : Dfa} {text : List Char} {few many : Nat}
    (h : dfa.Alive (text.take many)) (le : few ≤ many)
    : dfa.Alive (text.take few) := by
  obtain ⟨rest, whole⟩ := List.take_prefix_take_left (l := text) le
  rw [← whole] at h
  exact h.of_append

/-- An automaton that accepts a text is alive behind it. -/
theorem alive_of_accepts {dfa : Dfa} {text : List Char} (h : dfa.accepts text = true)
    : dfa.Alive text := by
  rw [accepts, Option.any_eq_true] at h
  obtain ⟨state, run, final⟩ := h
  have live : dfa.isSink state = false := by
    cases sink : dfa.isSink state with
    | false => rfl
    | true => simp [sink] at final
  refine ⟨Bool.eq_false_iff.mpr fun sink => ?_, state, run, live⟩
  rw [isSink_of_runFrom run sink] at live
  cases live

/-- The run on one more character is one more step. -/
theorem run_concat (dfa : Dfa) (text : List Char) (c : Char)
    : dfa.run (text ++ [c]) = (dfa.run text).bind fun state => dfa.step state c := by
  rw [run, runFrom_append]
  simp [run, runFrom]

/-- The places in a text behind which the automaton accepts what it has read. -/
def acceptPlaces (dfa : Dfa) (text : List Char) : Set Nat :=
  {i | i < text.length ∧ dfa.accepts (text.take (i + 1)) = true}

/-- The empty text has no place to accept at. -/
theorem acceptPlaces_nil (dfa : Dfa) : dfa.acceptPlaces [] = ∅ := by
  simp [acceptPlaces]

/-- One more character keeps the places and may add the one behind it. -/
theorem mem_acceptPlaces_concat {dfa : Dfa} {text : List Char} {c : Char} {i : Nat}
    : i ∈ dfa.acceptPlaces (text ++ [c])
      ↔ i ∈ dfa.acceptPlaces text ∨ i = text.length ∧ dfa.accepts (text ++ [c]) = true := by
  simp only [acceptPlaces, Set.mem_ofPred_eq, List.length_append, List.length_singleton]
  rcases Nat.lt_trichotomy i text.length with before | rfl | behind
  · rw [List.take_append_of_le_length before]
    simp [before, Nat.lt_succ_of_lt before, Nat.ne_of_lt before]
  · rw [List.take_of_length_le (by simp)]
    simp
  · have past : ¬i < text.length + 1 := by omega
    simp [past, Nat.lt_asymm behind, Nat.ne_of_gt behind]

/-- Where the longer text is not accepted, the places are those of the shorter one. -/
theorem acceptPlaces_concat {dfa : Dfa} {text : List Char} {c : Char}
    (rejects : dfa.accepts (text ++ [c]) = false)
    : dfa.acceptPlaces (text ++ [c]) = dfa.acceptPlaces text := by
  apply Set.ext
  intro i
  simp [mem_acceptPlaces_concat, rejects]

/-- Where the whole text is accepted, its end is the last place of all. -/
theorem isGreatest_acceptPlaces_concat {dfa : Dfa} {text : List Char} {c : Char}
    (accepted : dfa.accepts (text ++ [c]) = true)
    : IsGreatest (dfa.acceptPlaces (text ++ [c])) text.length := by
  refine ⟨mem_acceptPlaces_concat.mpr (Or.inr ⟨rfl, accepted⟩), fun i place => ?_⟩
  rcases mem_acceptPlaces_concat.mp place with ⟨before, _⟩ | ⟨rfl, _⟩
  · exact Nat.le_of_lt before
  · exact Nat.le_refl _

end Dfa

-----------------------------------------------------------------------------------------
-- One runner
-----------------------------------------------------------------------------------------

namespace Runner

/-- The last of some places, if there are any. -/
def Last (places : Set Nat) : Option Nat → Prop
  | none => places = ∅
  | some last => IsGreatest places last

/-- The runner has read the text, or has dropped out on the way. -/
structure Follows (runner : Runner) (text : List Char) : Prop where
  dead_iff : runner.dead = true ↔ ¬runner.dfa.Alive text
  run_eq : runner.dfa.Alive text → runner.dfa.run text = some runner.state
  last : Last (runner.dfa.acceptPlaces text) runner.lastAccept

/-- A runner that has read nothing follows the empty text. -/
theorem follows_start (dfa : Dfa) : (start dfa).Follows [] where
  dead_iff := by simp [start, Dfa.alive_nil]
  run_eq := fun _ => rfl
  last := Dfa.acceptPlaces_nil dfa

/-- Feeding a character to a runner leaves it with its automaton. -/
theorem dfa_feed (index : Nat) (c : Char) (runner : Runner)
    : (runner.feed index c).dfa = runner.dfa := by
  unfold feed
  split
  · rfl
  · split
    · rfl
    · split
      · rfl
      · split <;> rfl

/-- A runner that drops out keeps its last place, since its automaton accepts no more. -/
theorem Follows.dropOut {runner : Runner} {text : List Char} {c : Char} (state : State)
    (h : runner.Follows text) (dead : ¬runner.dfa.Alive (text ++ [c]))
    : { runner with state, dead := true : Runner }.Follows (text ++ [c]) where
  dead_iff := by simp [dead]
  run_eq := fun alive => absurd alive dead
  last := by
    have rejects : runner.dfa.accepts (text ++ [c]) = false :=
      Bool.eq_false_iff.mpr fun accepted => dead (Dfa.alive_of_accepts accepted)
    rw [Dfa.acceptPlaces_concat rejects]
    exact h.last

/-- A runner that goes on has its last place where its automaton accepts the whole text. -/
theorem Follows.goOn {runner : Runner} {text : List Char} {c : Char} {next : State}
    (h : runner.Follows text) (awake : runner.dead = false)
    (alive : runner.dfa.Alive (text ++ [c]))
    (run : runner.dfa.run (text ++ [c]) = some next)
    : { runner with
          state := next
          lastAccept := if runner.dfa.isFinal next then some text.length else runner.lastAccept
          : Runner }.Follows (text ++ [c]) where
  dead_iff := by simp [awake, alive]
  run_eq := fun _ => run
  last := by
    obtain ⟨_, state, same, live⟩ := alive
    obtain rfl : next = state := Option.some.inj (run.symm.trans same)
    cases final : runner.dfa.isFinal next with
    | true =>
        have accepted : runner.dfa.accepts (text ++ [c]) = true := by
          simp [Dfa.accepts, run, live, final]
        exact Dfa.isGreatest_acceptPlaces_concat accepted
    | false =>
        have rejects : runner.dfa.accepts (text ++ [c]) = false := by
          simp [Dfa.accepts, run, final]
        rw [Dfa.acceptPlaces_concat rejects]
        exact h.last

/-- A runner follows the text when it is fed one more character. -/
theorem Follows.feed {runner : Runner} {text : List Char} (h : runner.Follows text) (c : Char)
    : (runner.feed text.length c).Follows (text ++ [c]) := by
  unfold Runner.feed
  cases out : runner.dead with
  | true =>
      have dead : ¬runner.dfa.Alive (text ++ [c]) := fun alive =>
        h.dead_iff.mp out alive.of_append
      have same : { runner with dead := true } = runner := by rw [← out]
      simpa [same] using h.dropOut runner.state dead
  | false =>
      have alive : runner.dfa.Alive text := by
        by_contra dead
        rw [h.dead_iff.mpr dead] at out
        cases out
      have run := runner.dfa.run_concat text c
      rw [h.run_eq alive, Option.bind_some] at run
      rw [if_neg Bool.false_ne_true]
      cases step : runner.dfa.step runner.state c with
      | none => exact h.dropOut runner.state (by simp [Dfa.Alive, run, step])
      | some next =>
          rw [step] at run
          cases sink : runner.dfa.isSink next with
          | true =>
              have dropped := h.dropOut next (c := c) (by simp [Dfa.Alive, run, sink])
              simpa [sink] using dropped
          | false =>
              have onward := h.goOn out ⟨alive.1, next, run, sink⟩ run
              cases final : runner.dfa.isFinal next <;> simpa [sink, final, out] using onward

end Runner

-----------------------------------------------------------------------------------------
-- A round
-----------------------------------------------------------------------------------------

namespace Round

/-- The round of some automata has come to its index in a text, and none of the characters before
was the last one of the round.
-/
structure Reached (round : Round) (automata : List Dfa) (text : List Char) : Prop where
  within : round.index < text.length
  dfas : round.runners.map Runner.dfa = automata
  follows : ∀ runner ∈ round.runners, runner.Follows (text.take (round.index + 1))
  before : ∀ i < round.index, ∃ dfa ∈ automata, dfa.Alive (text.take (i + 1))

/-- A round is over when no automaton is alive any more behind what it has read. -/
theorem Reached.isOver_iff {round : Round} {automata : List Dfa} {text : List Char}
    (h : round.Reached automata text)
    : round.isOver = true ↔ ∀ dfa ∈ automata, ¬dfa.Alive (text.take (round.index + 1)) := by
  rw [isOver, List.all_eq_true, ← h.dfas]
  constructor
  · intro all dfa mem
    obtain ⟨runner, present, rfl⟩ := List.mem_map.mp mem
    exact (h.follows runner present).dead_iff.mp (all runner present)
  · intro none runner mem
    exact (h.follows runner mem).dead_iff.mpr (none _ (List.mem_map_of_mem mem))

/-- With its first character a round has come to the first index of the text. -/
theorem reached_start (automata : List Dfa) (c : Char) (rest : List Char)
    : Reached ⟨(automata.map .start).map (Runner.feed 0 c), 0⟩ automata (c :: rest) where
  within := Nat.zero_lt_succ _
  dfas := by simp [Function.comp_def, Runner.dfa_feed, Runner.start]
  follows := by
    intro runner mem
    simp only [List.map_map, List.mem_map] at mem
    obtain ⟨dfa, _, rfl⟩ := mem
    exact (Runner.follows_start dfa).feed c
  before := fun i none => absurd none (Nat.not_lt_zero i)

/-- A round that is not over comes to the next character. -/
theorem Reached.next {round : Round} {automata : List Dfa} {text : List Char}
    (h : round.Reached automata text) (running : round.isOver = false)
    (more : round.index + 1 < text.length)
    : Reached
        ⟨round.runners.map (Runner.feed (round.index + 1) text[round.index + 1]),
          round.index + 1⟩
        automata text where
  within := more
  dfas := by simpa [Function.comp_def, Runner.dfa_feed] using h.dfas
  follows := by
    intro runner mem
    obtain ⟨runner, present, rfl⟩ := List.mem_map.mp mem
    have fed := (h.follows runner present).feed text[round.index + 1]
    rwa [List.length_take_of_le (Nat.le_of_lt more), ← List.take_succ_eq_append_getElem more]
      at fed
  before := by
    intro i earlier
    rcases Nat.lt_succ_iff_lt_or_eq.mp earlier with earlier | rfl
    · exact h.before i earlier
    · by_contra none
      push Not at none
      rw [h.isOver_iff.mpr none] at running
      cases running

/-- A round goes on until it is over or the text has ended, by induction on the characters that
have not been fed.
-/
theorem reached_run {runners : List Runner} {index : Nat} {c : Char} {rest : List Char}
    {automata : List Dfa} {text : List Char}
    (h : Reached ⟨runners.map (Runner.feed index c), index⟩ automata text)
    (behind : text.drop (index + 1) = rest)
    : (run runners index c rest).Reached automata text
      ∧ ((run runners index c rest).isOver = false
          → (run runners index c rest).index + 1 = text.length) := by
  induction rest generalizing runners index c with
  | nil =>
      have ended : text.length ≤ index + 1 := List.drop_eq_nil_iff.mp behind
      exact ⟨h, fun _ => Nat.le_antisymm h.within ended⟩
  | cons next more ih =>
      rw [run]
      cases finished : isOver ⟨runners.map (Runner.feed index c), index⟩ with
      | true =>
          rw [if_pos rfl]
          exact ⟨h, fun running => by simp [finished] at running⟩
      | false =>
          have inside : index + 1 < text.length := by
            by_contra outside
            rw [List.drop_of_length_le (Nat.not_lt.mp outside)] at behind
            cases behind
          rw [List.drop_eq_getElem_cons inside] at behind
          obtain ⟨rfl, behind'⟩ := List.cons.inj behind
          exact ih (h.next finished inside) behind'

/-- When a round has ended, no automaton has accepted anything longer. -/
theorem Reached.acceptPlaces_eq {round : Round} {automata : List Dfa} {text : List Char}
    {dfa : Dfa} (h : round.Reached automata text)
    (ended : round.isOver = false → round.index + 1 = text.length) (mem : dfa ∈ automata)
    : dfa.acceptPlaces (text.take (round.index + 1)) = dfa.acceptPlaces text := by
  cases finished : round.isOver with
  | false => rw [ended finished, List.take_length]
  | true =>
      apply Set.ext
      intro i
      simp only [Dfa.acceptPlaces, Set.mem_ofPred_eq, List.take_take, List.length_take]
      constructor
      · intro place
        obtain ⟨within, accepted⟩ := place
        rw [Nat.min_eq_left (by omega)] at accepted
        exact ⟨by omega, accepted⟩
      · intro place
        obtain ⟨within, accepted⟩ := place
        have alive := Dfa.alive_of_accepts accepted
        have early : i + 1 ≤ round.index + 1 := by
          by_contra late
          exact h.isOver_iff.mp finished dfa mem (alive.take (Nat.le_of_not_le late))
        rw [Nat.min_eq_left early]
        have := h.within
        exact ⟨by omega, accepted⟩

-----------------------------------------------------------------------------------------
-- The winner of a round
-----------------------------------------------------------------------------------------

/-- The leader among some runners is the earliest with the greatest place; there is none if no
runner has a place.
-/
def Leads (runners : List Runner) : Option (Dfa × Nat) → Prop
  | none => ∀ runner ∈ runners, runner.lastAccept = none
  | some (dfa, last) =>
      ∃ front runner back,
        runners = front ++ runner :: back
        ∧ runner.dfa = dfa
        ∧ runner.lastAccept = some last
        ∧ (∀ other ∈ front, ∀ i ∈ other.lastAccept, i < last)
        ∧ ∀ other ∈ back, ∀ i ∈ other.lastAccept, i ≤ last

/-- A runner behind the others leads if none of them got so far. -/
theorem leads_concat {runners : List Runner} {runner : Runner} {last : Nat}
    (place : runner.lastAccept = some last)
    (ahead : ∀ other ∈ runners, ∀ i ∈ other.lastAccept, i < last)
    : Leads (runners ++ [runner]) (some (runner.dfa, last)) :=
  ⟨runners, runner, [], rfl, rfl, place, ahead, by simp⟩

/-- A leader stays ahead of a further runner that has no later place. -/
theorem Leads.keep {runners : List Runner} {dfa : Dfa} {last : Nat} {runner : Runner}
    (h : Leads runners (some (dfa, last))) (beaten : ∀ i ∈ runner.lastAccept, i ≤ last)
    : Leads (runners ++ [runner]) (some (dfa, last)) := by
  obtain ⟨front, leader, back, rfl, same, place, before, behind⟩ := h
  refine ⟨front, leader, back ++ [runner], by simp, same, place, before, ?_⟩
  intro other mem
  rcases List.mem_append.mp mem with mem | mem
  · exact behind other mem
  · obtain rfl := List.mem_singleton.mp mem
    exact beaten

/-- No runner has a later place than the leader. -/
theorem Leads.le {runners : List Runner} {dfa : Dfa} {last : Nat}
    (h : Leads runners (some (dfa, last)))
    : ∀ runner ∈ runners, ∀ i ∈ runner.lastAccept, i ≤ last := by
  obtain ⟨front, leader, back, rfl, _, place, before, behind⟩ := h
  intro runner mem i found
  rcases List.mem_append.mp mem with mem | mem
  · exact Nat.le_of_lt (before runner mem i found)
  · rcases List.mem_cons.mp mem with rfl | mem
    · obtain rfl := Option.some.inj (place.symm.trans found)
      exact Nat.le_refl _
    · exact behind runner mem i found

/-- With one more runner, the better of it and the leader leads: to take the lead it has to be
strictly ahead.
-/
theorem Leads.best {runners : List Runner} {leader : Option (Dfa × Nat)}
    (h : Leads runners leader) (runner : Runner)
    : Leads (runners ++ [runner]) (Runner.best leader runner) := by
  unfold Runner.best
  cases place : runner.lastAccept with
  | none =>
      cases leader with
      | none =>
          intro other mem
          rcases List.mem_append.mp mem with mem | mem
          · exact h other mem
          · obtain rfl := List.mem_singleton.mp mem
            exact place
      | some leader => exact h.keep (by simp [place])
  | some last =>
      cases leader with
      | none => exact leads_concat place fun other mem => by simp [h other mem]
      | some leader =>
          obtain ⟨dfa, furthest⟩ := leader
          dsimp only
          split
          · rename_i ahead
            exact leads_concat place fun other mem i found =>
              Nat.lt_of_le_of_lt (h.le other mem i found) ahead
          · rename_i behind
            exact h.keep (by simpa [place] using Nat.not_lt.mp behind)

/-- The winner leads among all runners, by induction on the runners that are still to come. -/
theorem leads_winner (round : Round) : Leads round.runners round.winner? := by
  have all {front back : List Runner} {leader : Option (Dfa × Nat)} (h : Leads front leader)
      : Leads (front ++ back) (back.foldl Runner.best leader) := by
    induction back generalizing front leader with
    | nil => simpa using h
    | cons runner back ih => simpa using ih (h.best runner)
  have none : Leads [] none := by simp [Leads]
  exact all none

end Round

end Munch
