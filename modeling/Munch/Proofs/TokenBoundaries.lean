import Mathlib.Tactic.Common
import Munch.Proofs.FailurePlaces
import Munch.Proofs.ScanRounds

/-! Scans cut at the end of a token. Each round looks at the rest of the input alone, and only its
error tells where that rest stands. A round may look far beyond its lexeme; yet without the text
behind it finds the same lexeme, since this is still the longest one. So the text of some first
tokens gives these tokens and the rest gives the others, or the same error counted from there.
-/

namespace Munch

open Rule (lexemes lexemes_nil lexemes_cons)

-----------------------------------------------------------------------------------------
-- Where a scan begins matters for its error alone
-----------------------------------------------------------------------------------------

/-- The error with its place counted from the beginning of some text in front. -/
def ScanError.shifted (front : List Char) : ScanError → ScanError
  | .noViableAlternative character line =>
      .noViableAlternative (front.length + character) (front.count '\n' + line)
  | .unexpectedEnd line => .unexpectedEnd (front.count '\n' + line)
  | .noRules => .noRules

/-- The same tokens, and the error with its place counted from the beginning of some text in front.
-/
def Scanned.shifted (front : List Char) (scanned : Scanned) : Scanned :=
  ⟨scanned.tokens, scanned.failure.map (·.shifted front)⟩

/-- A round further down in a text fails in the same way, with its place counted from the beginning
of the text.
-/
theorem Round.failure_shifted (round : Round) (front middle text : List Char)
    : round.failure (.behind (front ++ middle)) text
      = (round.failure (.behind middle) text).shifted front := by
  simp only [failure, Position.after_behind]
  split <;> simp [ScanError.shifted, Position.behind]

/-- A scan that has some more text behind it finds the same, by induction on its rounds. -/
theorem scanFrom_shifted (automata : List Dfa) (front middle text : List Char)
    : scanFrom automata (.behind (front ++ middle)) text
      = (scanFrom automata (.behind middle) text).shifted front := by
  induction text using munch_induction automata generalizing middle with
  | done => simp only [scanFrom, Scanned.shifted, Option.map_none]
  | stuck c rest none =>
      obtain ⟨round, _, failed⟩ := scanFrom_of_empty none
      rw [failed, failed, round.failure_shifted]
      rfl
  | token lexeme rest dfa ahead ih =>
      rw [ahead.scanFrom_eq, ahead.scanFrom_eq, Position.after_behind, Position.after_behind,
        List.append_assoc, ih]
      rfl

-----------------------------------------------------------------------------------------
-- Cutting a scan
-----------------------------------------------------------------------------------------

/-- The text of the first tokens of a scan gives these, and a scan that goes on behind it gives the
others and the error, by induction on the rounds.
-/
theorem scanFrom_split {automata : List Dfa} {position : Position} {text : List Char}
    {tokens : List Token} {failure : Option ScanError}
    (scanned : scanFrom automata position text = ⟨tokens, failure⟩) (k : Nat)
    : ∃ back,
        text = lexemes (tokens.take k) ++ back
        ∧ scanFrom automata position (lexemes (tokens.take k)) = ⟨tokens.take k, none⟩
        ∧ scanFrom automata (position.after (lexemes (tokens.take k))) back
          = ⟨tokens.drop k, failure⟩ := by
  induction text using munch_induction automata generalizing position tokens k with
  | done =>
      rw [scanFrom] at scanned
      obtain ⟨rfl, rfl⟩ := Scanned.mk.inj scanned
      exact ⟨[], by simp [lexemes, scanFrom]⟩
  | stuck c rest none =>
      have same := scanned
      obtain ⟨round, _, failed⟩ := scanFrom_of_empty none
      rw [failed] at same
      obtain ⟨rfl, _⟩ := Scanned.mk.inj same
      rw [List.take_nil, List.drop_nil, lexemes_nil, scanFrom]
      exact ⟨c :: rest, rfl, rfl, scanned⟩
  | token lexeme rest dfa ahead ih =>
      cases k with
      | zero =>
          rw [List.take_zero, List.drop_zero, lexemes_nil, scanFrom]
          exact ⟨lexeme ++ rest, rfl, rfl, scanned⟩
      | succ k =>
          rw [ahead.scanFrom_eq] at scanned
          obtain ⟨rfl, rfl⟩ := Scanned.mk.inj scanned
          obtain ⟨back, parted, front, onward⟩ := ih rfl k
          refine ⟨back, ?_⟩
          rw [List.take_succ_cons, List.drop_succ_cons, lexemes_cons, String.toList_ofList,
            ← Position.after_after, List.append_assoc, ← parted]
          rw [parted] at ahead
          refine ⟨rfl, ?_, onward⟩
          rw [ahead.of_append.scanFrom_eq, front]

/-- The text behind the first tokens of a scan, scanned on its own, gives the other tokens; its
error has its place counted from there.
-/
theorem exists_cut {automata : List Dfa} {input : List Char} {tokens : List Token}
    {failure : Option ScanError}
    (scanned : scanFrom automata (.behind []) input = ⟨tokens, failure⟩) (k : Nat)
    : ∃ back own,
        input = lexemes (tokens.take k) ++ back
        ∧ scanFrom automata (.behind []) (lexemes (tokens.take k)) = ⟨tokens.take k, none⟩
        ∧ scanFrom automata (.behind []) back = ⟨tokens.drop k, own⟩
        ∧ failure = own.map (·.shifted (lexemes (tokens.take k))) := by
  obtain ⟨back, parted, front, onward⟩ := scanFrom_split scanned k
  rw [Position.after_behind, List.nil_append, ← List.append_nil (lexemes (tokens.take k)),
    scanFrom_shifted] at onward
  obtain ⟨others, error⟩ := Scanned.mk.inj onward
  exact ⟨back, _, parted, front, by rw [← others], error.symm⟩

/-- A scan without tokens has met a text that begins with no lexeme. -/
theorem lexemeLengths_eq_empty_of_scanFrom {automata : List Dfa} {position : Position}
    {text : List Char} {failure : Option ScanError}
    (scanned : scanFrom automata position text = ⟨[], failure⟩)
    : lexemeLengths automata text = ∅ := by
  rcases empty_or_firstToken automata text with none | ⟨lexeme, rest, dfa, rfl, ahead⟩
  · exact none
  · rw [ahead.scanFrom_eq] at scanned
    cases scanned

/-- Where a text begins with no lexeme, no automaton accepts a beginning of it that has characters.
-/
theorem not_accepts_of_empty {automata : List Dfa} {text : List Char}
    (none : lexemeLengths automata text = ∅) {dfa : Dfa} (mem : dfa ∈ automata)
    {word : List Char} (some : word ≠ []) (begins : word <+: text)
    : dfa.accepts word = false := by
  rw [Bool.eq_false_iff]
  intro accepted
  obtain ⟨rest, rfl⟩ := begins
  apply Set.notMem_empty word.length
  rw [← none]
  exact ⟨List.length_pos_of_ne_nil some, by simp, dfa, mem, by rwa [List.take_left]⟩

/-- Scans can be cut at the end of each token: the text up to there gives the tokens up to there,
and the rest gives the others. A scan that fails has such a place behind which no automaton accepts
anything, and the rest fails with the same error, counted from there.
-/
theorem scan_cut_at_tokens (automata : List Dfa) (input : List Char)
    : (∀ tokens,
        scan automata input = .ok tokens
        → ∀ k,
            ∃ back,
              input = lexemes (tokens.take k) ++ back
              ∧ scan automata (lexemes (tokens.take k)) = .ok (tokens.take k)
              ∧ scan automata back = .ok (tokens.drop k))
      ∧ ∀ error,
          automata ≠ []
          → scan automata input = .error error
          → ∃ front back,
              input = front ++ back
              ∧ (∃ tokens, scan automata front = .ok tokens)
              ∧ (∀ dfa ∈ automata,
                  ∀ word, word ≠ [] → word <+: back → dfa.accepts word = false)
              ∧ ∃ own, scan automata back = .error own ∧ error = own.shifted front := by
  constructor
  · intro tokens scanned k
    obtain ⟨back, own, parted, front, onward, none⟩ := exists_cut (scan_eq_ok_iff.mp scanned) k
    rw [Option.map_eq_none_iff.mp none.symm] at onward
    exact ⟨back, parted, scan_eq_ok_iff.mpr front, scan_eq_ok_iff.mpr onward⟩
  · intro error some failed
    rw [scan, scanAll_eq_scanFrom some, Scanned.result_eq_error_iff] at failed
    obtain ⟨tokens, scanned⟩ := failed
    obtain ⟨back, own, parted, front, onward, error⟩ := exists_cut scanned tokens.length
    rw [List.take_length] at parted front error
    rw [List.drop_length] at onward
    have none := lexemeLengths_eq_empty_of_scanFrom onward
    obtain ⟨own, rfl, shifted⟩ := Option.map_eq_some_iff.mp error.symm
    refine ⟨lexemes tokens, back, parted, ⟨tokens, scan_eq_ok_iff.mpr front⟩, ?_, own, ?_,
      shifted.symm⟩
    · intro dfa mem word nonempty begins
      exact not_accepts_of_empty none mem nonempty begins
    · rw [scan, scanAll_eq_scanFrom some, Scanned.result_eq_error_iff]
      exact ⟨[], onward⟩

/-- An automaton for `a` or a line feed, with a line feed and an `a` behind it any number of times.
It reads all of `a\nb` before the first lexeme is found to be `a`, and fails on the `b` in the third
round.
-/
theorem scan_cut_line_feeds
    : ∃ dfa : Dfa,
        dfa.transitions = ⟨[⟨0, 'a', 1⟩, ⟨0, '\n', 1⟩, ⟨1, '\n', 2⟩, ⟨2, 'a', 1⟩]⟩
        ∧ dfa.finals = .ofList [1]
        ∧ scan [dfa] ['a', '\n'] = .ok [⟨dfa.label, "a"⟩, ⟨dfa.label, "\n"⟩]
        ∧ scan [dfa] ['a', '\n', 'b'] = .error (.noViableAlternative 2 1)
        ∧ (∃ back,
            ['a', '\n'] = lexemes [⟨dfa.label, "a"⟩] ++ back
            ∧ scan [dfa] (lexemes [⟨dfa.label, "a"⟩]) = .ok [⟨dfa.label, "a"⟩]
            ∧ scan [dfa] back = .ok [⟨dfa.label, "\n"⟩])
        ∧ ∃ front back,
            ['a', '\n', 'b'] = front ++ back
            ∧ (∃ tokens, scan [dfa] front = .ok tokens)
            ∧ (∀ other ∈ [dfa], ∀ word, word ≠ [] → word <+: back → other.accepts word = false)
            ∧ ∃ own,
                scan [dfa] back = .error own
                ∧ .noViableAlternative 2 1 = own.shifted front := by
  let dfa : Dfa := {
    alphabet := ['\n', 'a'], label := "A", start := 0, finals := .ofList [1],
    states := .ofList [0, 1, 2],
    transitions := ⟨[⟨0, 'a', 1⟩, ⟨0, '\n', 1⟩, ⟨1, '\n', 2⟩, ⟨2, 'a', 1⟩]⟩, sinks := ∅,
    target_mem_sinks := fun _ _ sink => absurd sink (SortedSet.not_mem_empty _),
    not_mem_sinks_of_mem_finals := fun _ _ => SortedSet.not_mem_empty _
  }
  have start : dfa.start = 0 := rfl
  have live (q : State) : dfa.isSink q = false := rfl
  have final : dfa.isFinal 1 = true := rfl
  have middle : dfa.isFinal 2 = false := rfl
  have steps
      : dfa.step 0 'a' = some 1 ∧ dfa.step 0 '\n' = some 1 ∧ dfa.step 0 'b' = none
        ∧ dfa.step 1 '\n' = some 2 ∧ dfa.step 1 'b' = none ∧ dfa.step 2 'b' = none := by
    simp only [Dfa.step_eq_head?]
    exact ⟨rfl, rfl, rfl, rfl, rfl, rfl⟩
  refine ⟨dfa, rfl, rfl, ?_⟩
  clear_value dfa
  have scanned : scan [dfa] ['a', '\n'] = .ok [⟨dfa.label, "a"⟩, ⟨dfa.label, "\n"⟩] := by
    simp [scan, scanAll, scanFrom, Round.run, Runner.start, Runner.feed, Round.isOver,
      Round.winner?, Runner.best, Scanned.result, start, live, final, middle, steps]
  have failed : scan [dfa] ['a', '\n', 'b'] = .error (.noViableAlternative 2 1) := by
    simp [scan, scanAll, scanFrom, Round.run, Runner.start, Runner.feed, Round.isOver,
      Round.winner?, Runner.best, Scanned.result, Round.failure, Position.after, start, live,
      final, middle, steps]
  exact ⟨scanned, failed, (scan_cut_at_tokens _ _).1 _ scanned 1,
    (scan_cut_at_tokens _ _).2 _ (List.cons_ne_nil _ _) failed⟩

end Munch
