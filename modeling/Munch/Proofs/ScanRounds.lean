import Mathlib.Tactic.Common
import Munch.Proofs.MaximalMunch

/-! The rounds of a scan. A round finds the longest lexeme at the beginning of what is left, or it
ends the scan; so what holds of a text if it holds behind its first lexeme can be shown by
induction.
-/

namespace Munch

-----------------------------------------------------------------------------------------
-- Steps of a scan
-----------------------------------------------------------------------------------------

/-- Behind two texts is behind the second one, where the first one ends. -/
theorem Position.after_after (position : Position) (front back : List Char)
    : (position.after front).after back = position.after (front ++ back) := by
  simp [after, Nat.add_assoc]

/-- A round in which nothing is accepted has no winner. -/
theorem Round.winner?_eq_none {automata : List Dfa} {c : Char} {rest : List Char}
    (none : lexemeLengths automata (c :: rest) = ∅)
    : (run (automata.map .start) 0 c rest).winner? = Option.none := by
  have ended := ended_run automata c rest
  cases won : (run (automata.map .start) 0 c rest).winner? with
  | none => rfl
  | some winner => exact absurd (ended.winner won).1 (not_isGreatest_of_empty none)

/-- The winner of a round is the first automaton that accepts the longest lexeme. -/
theorem Round.winner?_eq_some {automata : List Dfa} {c : Char} {rest : List Char} {last : Nat}
    {dfa : Dfa} (longest : IsGreatest (lexemeLengths automata (c :: rest)) (last + 1))
    (first : automata.find? (·.accepts ((c :: rest).take (last + 1))) = some dfa)
    : (run (automata.map .start) 0 c rest).winner? = some (dfa, last) := by
  have ended := ended_run automata c rest
  cases won : (run (automata.map .start) 0 c rest).winner? with
  | none => exact absurd longest (not_isGreatest_of_empty (ended.lexemeLengths_eq_empty won))
  | some winner =>
      obtain ⟨dfa', last'⟩ := winner
      obtain ⟨longest', first'⟩ := ended.winner won
      obtain rfl : last = last' := Nat.succ.inj (longest.unique longest')
      obtain rfl := Option.some.inj (first.symm.trans first')
      rfl

/-- A round in which nothing is accepted ends the scan. -/
theorem scanFrom_of_empty {automata : List Dfa} {c : Char} {rest : List Char}
    (none : lexemeLengths automata (c :: rest) = ∅)
    : ∃ round : Round,
        round.Ended automata (c :: rest)
        ∧ ∀ position,
            scanFrom automata position (c :: rest)
            = ⟨[], some (round.failure position (c :: rest))⟩ := by
  refine ⟨_, Round.ended_run automata c rest, fun position => ?_⟩
  rw [scanFrom, Round.winner?_eq_none none]

/-- A round gives the longest lexeme, with the label of the first automaton that accepts it. -/
theorem scanFrom_of_longest {automata : List Dfa} {text : List Char} {length : Nat} {dfa : Dfa}
    (position : Position) (longest : IsGreatest (lexemeLengths automata text) length)
    (first : automata.find? (·.accepts (text.take length)) = some dfa)
    : scanFrom automata position text
      = ⟨⟨dfa.label, .ofList (text.take length)⟩
            :: (scanFrom automata (position.after (text.take length)) (text.drop length)).tokens,
          (scanFrom automata (position.after (text.take length)) (text.drop length)).failure⟩ := by
  cases text with
  | nil => exact absurd (Nat.le_trans longest.1.1 longest.1.2.1) (by decide)
  | cons c rest =>
      obtain ⟨last, rfl⟩ := Nat.exists_eq_succ_of_ne_zero (Nat.ne_of_gt longest.1.1)
      conv_lhs => rw [scanFrom, Round.winner?_eq_some longest first]

-----------------------------------------------------------------------------------------
-- Induction on the rounds of a scan
-----------------------------------------------------------------------------------------

/-- A text begins with a lexeme that is the longest one there, and the automaton is the first one
that accepts it.
-/
structure FirstToken (automata : List Dfa) (lexeme rest : List Char) (dfa : Dfa) : Prop where
  longest : IsGreatest (lexemeLengths automata (lexeme ++ rest)) lexeme.length
  first : automata.find? (·.accepts lexeme) = some dfa

namespace FirstToken

variable {automata : List Dfa} {lexeme rest : List Char} {dfa : Dfa}

/-- Where a text begins with a first token, the scan gives that token and goes on behind its lexeme.
-/
theorem scanFrom_eq (h : FirstToken automata lexeme rest dfa) (position : Position)
    : scanFrom automata position (lexeme ++ rest)
      = ⟨⟨dfa.label, .ofList lexeme⟩ :: (scanFrom automata (position.after lexeme) rest).tokens,
          (scanFrom automata (position.after lexeme) rest).failure⟩ := by
  have first : automata.find? (·.accepts ((lexeme ++ rest).take lexeme.length)) = some dfa := by
    rw [List.take_left]
    exact h.first
  rw [scanFrom_of_longest position h.longest first, List.take_left, List.drop_left]

/-- What is longest stays longest when the text ends anywhere behind it. -/
theorem of_append {more : List Char} (h : FirstToken automata lexeme (rest ++ more) dfa)
    : FirstToken automata lexeme rest dfa := by
  obtain ⟨some, _, accepted⟩ := h.longest.1
  rw [List.take_left] at accepted
  refine ⟨⟨⟨some, by simp, by rwa [List.take_left]⟩, ?_⟩, h.first⟩
  intro k other
  obtain ⟨some, within, accepted⟩ := other
  apply h.longest.2
  rw [← List.append_assoc]
  refine ⟨some, List.length_append ▸ Nat.le_add_right_of_le within, ?_⟩
  rwa [List.take_append_of_le_length within]

end FirstToken

/-- The empty text begins with no lexeme. -/
theorem lexemeLengths_nil (automata : List Dfa) : lexemeLengths automata [] = ∅ := by
  apply Set.eq_empty_of_forall_notMem
  intro k accepted
  exact absurd (Nat.le_trans accepted.1 accepted.2.1) (by decide)

/-- Either a text begins with no lexeme, or it begins with a longest one that some automaton accepts
first.
-/
theorem empty_or_firstToken (automata : List Dfa) (text : List Char)
    : lexemeLengths automata text = ∅
      ∨ ∃ lexeme rest dfa, text = lexeme ++ rest ∧ FirstToken automata lexeme rest dfa := by
  cases text with
  | nil => exact Or.inl (lexemeLengths_nil automata)
  | cons c rest =>
      have ended := Round.ended_run automata c rest
      cases won : (Round.run (automata.map .start) 0 c rest).winner? with
      | none => exact Or.inl (ended.lexemeLengths_eq_empty won)
      | some winner =>
          obtain ⟨longest, first⟩ := ended.winner won
          have parted := List.take_append_drop (winner.2 + 1) (c :: rest)
          refine Or.inr ⟨_, _, winner.1, parted.symm, ?_, first⟩
          rwa [parted, List.length_take_of_le longest.1.2.1]

/-- What holds where a scan ends, and of a text if it holds behind the first lexeme, holds of every
text.
-/
@[elab_as_elim]
theorem munch_induction (automata : List Dfa) {motive : List Char → Prop} (done : motive [])
    (stuck : ∀ c rest, lexemeLengths automata (c :: rest) = ∅ → motive (c :: rest))
    (token
      : ∀ lexeme rest dfa,
          FirstToken automata lexeme rest dfa → motive rest → motive (lexeme ++ rest))
    (text : List Char)
    : motive text := by
  rcases empty_or_firstToken automata text with none | ⟨lexeme, rest, dfa, parted, ahead⟩
  · cases text with
    | nil => exact done
    | cons c rest => exact stuck c rest none
  · have some : 1 ≤ lexeme.length := ahead.longest.1.1
    rw [parted]
    exact token lexeme rest dfa ahead (munch_induction automata done stuck token rest)
termination_by text.length
decreasing_by
  rw [parted, List.length_append]
  omega

-----------------------------------------------------------------------------------------
-- The outcome of a scan
-----------------------------------------------------------------------------------------

/-- A scan succeeds with all its tokens if nothing failed. -/
theorem Scanned.result_eq_ok_iff {scanned : Scanned} {tokens : List Token}
    : scanned.result = .ok tokens ↔ scanned = ⟨tokens, none⟩ := by
  obtain ⟨tokens, failure⟩ := scanned
  cases failure <;> simp [result]

/-- A scan fails with the error behind its tokens. -/
theorem Scanned.result_eq_error_iff {scanned : Scanned} {error : ScanError}
    : scanned.result = .error error ↔ ∃ tokens, scanned = ⟨tokens, some error⟩ := by
  obtain ⟨tokens, failure⟩ := scanned
  cases failure <;> simp [result]

/-- Without automata only the empty input is scanned, as it is where there are some. -/
theorem scan_eq_ok_iff {automata : List Dfa} {input : List Char} {tokens : List Token}
    : scan automata input = .ok tokens ↔ scanFrom automata (.behind []) input = ⟨tokens, none⟩ := by
  by_cases some : automata = []
  · subst some
    cases input with
    | nil => rw [scan, Scanned.result_eq_ok_iff, scanFrom]; rfl
    | cons c rest =>
        have none : lexemeLengths [] (c :: rest) = ∅ := by simp [lexemeLengths]
        obtain ⟨round, _, failed⟩ := scanFrom_of_empty none
        rw [failed]
        simp [scan, scanAll, Scanned.result]
  · rw [scan, scanAll_eq_scanFrom some, Scanned.result_eq_ok_iff]

end Munch
