import Mathlib.Data.List.Forall2
import Munch.Proofs.ComparedScans

/-! The order of the automata. Whether a round is over, and how long its longest lexeme is, depends
on which automata there are and not on their order. So automata in another order cut the same
lexemes off every text and fail with the same error; only the winner of a round may be another, and
then both accept the lexeme.
-/

namespace Munch

-----------------------------------------------------------------------------------------
-- The winners of the rounds
-----------------------------------------------------------------------------------------

/-- A round that gives a token: the automaton that wins it, and the lexeme. -/
structure Win where
  dfa : Dfa
  lexeme : List Char

/-- The token that the round gives. -/
def Win.token (win : Win) : Token :=
  ⟨win.dfa.label, .ofList win.lexeme⟩

/-- The rounds in which automata cut tokens off a text. -/
def wins (automata : List Dfa) (text : List Char) : List Win :=
  match text with
  | [] => []
  | c :: rest =>
      match (Round.run (automata.map .start) 0 c rest).winner? with
      | none => []
      | some (dfa, last) =>
          ⟨dfa, (c :: rest).take (last + 1)⟩ :: wins automata ((c :: rest).drop (last + 1))
  termination_by text.length
  decreasing_by
    simp only [List.drop_succ_cons, List.length_drop, List.length_cons]
    omega

/-- Where no automaton accepts any beginning there is no round to win. -/
theorem wins_of_empty {automata : List Dfa} {c : Char} {rest : List Char}
    (none : lexemeLengths automata (c :: rest) = ∅)
    : wins automata (c :: rest) = [] := by
  rw [wins, Round.winner?_eq_none none]

/-- The first automaton of the first lexeme wins its round, and the others are won as in the text
behind it.
-/
theorem FirstToken.wins_eq {automata : List Dfa} {lexeme rest : List Char} {dfa : Dfa}
    (h : FirstToken automata lexeme rest dfa)
    : wins automata (lexeme ++ rest) = ⟨dfa, lexeme⟩ :: wins automata rest := by
  obtain ⟨longest, first⟩ := h
  cases lexeme with
  | nil => exact absurd longest.1.1 (by decide)
  | cons c lexeme =>
      rw [List.cons_append] at longest
      have first' : automata.find? (·.accepts ((c :: (lexeme ++ rest)).take (lexeme.length + 1)))
          = some dfa := by simpa using first
      rw [List.cons_append, wins, Round.winner?_eq_some longest first']
      simp

/-- The tokens of a scan are those of its rounds, by induction on them. -/
theorem tokens_scanFrom (automata : List Dfa) (position : Position) (text : List Char)
    : (scanFrom automata position text).tokens = (wins automata text).map Win.token := by
  induction text using munch_induction automata generalizing position with
  | done => simp only [scanFrom, wins, List.map_nil]
  | stuck c rest none =>
      obtain ⟨round, _, failed⟩ := scanFrom_of_empty none
      rw [failed, wins_of_empty none, List.map_nil]
  | token lexeme rest dfa ahead ih =>
      rw [ahead.scanFrom_eq, ahead.wins_eq, List.map_cons, ih]
      rfl

/-- The tokens of a scan are those of its winners. -/
theorem tokens_eq_of_scan {automata : List Dfa} {input : List Char} {tokens : List Token}
    (scanned : scan automata input = .ok tokens)
    : tokens = (wins automata input).map Win.token := by
  rw [← tokens_scanFrom automata (.behind []), scan_eq_ok_iff.mp scanned]

-----------------------------------------------------------------------------------------
-- Automata in another order
-----------------------------------------------------------------------------------------

/-- Two rounds give the same lexeme, which the winners of both accept. -/
structure Win.Agree (win other : Win) : Prop where
  lexeme : win.lexeme = other.lexeme
  accepts : win.dfa.accepts win.lexeme = true
  accepts' : other.dfa.accepts win.lexeme = true

/-- The winner of a round accepts the lexeme. -/
theorem FirstToken.accepts {automata : List Dfa} {lexeme rest : List Char} {dfa : Dfa}
    (h : FirstToken automata lexeme rest dfa)
    : dfa.accepts lexeme = true :=
  List.find?_some (p := fun dfa : Dfa => dfa.accepts lexeme) h.first

section

variable {automata others : List Dfa} (reordered : automata.Perm others)

include reordered

/-- The order of the automata does not matter to which lexemes there are. -/
theorem lexemeLengths_eq_of_perm (text : List Char)
    : lexemeLengths automata text = lexemeLengths others text := by
  simp only [lexemeLengths, reordered.mem_iff]

/-- The rounds of both scans agree one by one, by induction on them. -/
theorem agree_wins (text : List Char)
    : List.Forall₂ Win.Agree (wins automata text) (wins others text) := by
  have same := lexemeLengths_eq_of_perm reordered
  induction text using munch_induction automata with
  | done =>
      simp only [wins]
      exact .nil
  | stuck c rest none =>
      rw [wins_of_empty none, wins_of_empty (same _ ▸ none)]
      exact .nil
  | token lexeme rest dfa ahead ih =>
      obtain ⟨other, ahead'⟩ := ahead.exists_of_lexemeLengths_eq same
      rw [ahead.wins_eq, ahead'.wins_eq]
      exact .cons ⟨rfl, ahead.accepts, ahead'.accepts⟩ ih

/-- Neither scan fails later than the other, so they fail with the same error or not at all. -/
theorem failure_scanFrom_eq (position : Position) (text : List Char)
    : (scanFrom automata position text).failure = (scanFrom others position text).failure := by
  have same := lexemeLengths_eq_of_perm reordered
  have alive (front : List Char)
      : (∃ dfa ∈ automata, dfa.Alive front) ↔ ∃ dfa ∈ others, dfa.Alive front := by
    simp only [reordered.mem_iff]
  have forth := failure_scanFrom_noLater same (fun front => (alive front).mp) position text
  have back := failure_scanFrom_noLater (fun text => (same text).symm)
    (fun front => (alive front).mpr) position text
  generalize (scanFrom automata position text).failure = failure at forth back ⊢
  generalize (scanFrom others position text).failure = failure' at forth back ⊢
  cases forth with
  | none => rfl
  | some noLater =>
      cases back with
      | some noLater' => rw [noLater.antisymm noLater']

/-- Automata in another order fail with the same error, because the text is cut at the same places.
-/
theorem scan_eq_error_iff_of_perm {input : List Char} {error : ScanError}
    : scan automata input = .error error ↔ scan others input = .error error := by
  by_cases none : automata = []
  · subst none
    obtain rfl := reordered.nil_eq
    rfl
  · have none' : others ≠ [] := fun empty => none (by rwa [empty, List.perm_nil] at reordered)
    have failure := failure_scanFrom_eq reordered (.behind []) input
    simp only [scan, scanAll_eq_scanFrom none, scanAll_eq_scanFrom none', Scanned.result, failure]
    split <;> simp

end

/-- Automata in another order fail with the same error where they fail. Otherwise they give tokens
with the same lexemes one by one, and both automata that a token comes from accept its lexeme.
-/
theorem scan_perm {automata others : List Dfa} (reordered : automata.Perm others)
    (input : List Char)
    : (∀ error, scan automata input = .error error ↔ scan others input = .error error)
      ∧ ∀ tokens,
          scan automata input = .ok tokens
          → ∃ tokens',
              scan others input = .ok tokens'
              ∧ tokens'.map Token.lexeme = tokens.map Token.lexeme
              ∧ tokens = (wins automata input).map Win.token
              ∧ tokens' = (wins others input).map Win.token
              ∧ List.Forall₂ Win.Agree (wins automata input) (wins others input) := by
  have errors (error : ScanError)
      : scan automata input = .error error ↔ scan others input = .error error :=
    scan_eq_error_iff_of_perm reordered
  refine ⟨errors, fun tokens scanned => ?_⟩
  cases scanned' : scan others input with
  | error error =>
      rw [(errors error).mpr scanned'] at scanned
      cases scanned
  | ok tokens' =>
      have agree := agree_wins reordered input
      have given := tokens_eq_of_scan scanned
      have given' := tokens_eq_of_scan scanned'
      refine ⟨tokens', rfl, ?_, given, given', agree⟩
      rw [given, given', List.map_map, List.map_map, eq_comm, ← List.forall₂_eq_eq_eq,
        List.forall₂_map_left_iff, List.forall₂_map_right_iff]
      exact agree.imp fun _ _ h => congrArg String.ofList h.lexeme

/-- One automaton for any number of `a` and one for two of them. Which one comes first decides who
gets `aa`, and nothing else.
-/
theorem scan_perm_tie
    : ∃ many two : Dfa,
        many.transitions = ⟨[⟨0, 'a', 1⟩, ⟨1, 'a', 1⟩]⟩
        ∧ two.transitions = ⟨[⟨0, 'a', 1⟩, ⟨1, 'a', 2⟩]⟩
        ∧ [many, two].Perm [two, many]
        ∧ scan [many, two] ['a', 'a'] = .ok [⟨many.label, "aa"⟩]
        ∧ scan [two, many] ['a', 'a'] = .ok [⟨two.label, "aa"⟩]
        ∧ List.Forall₂ Win.Agree (wins [many, two] ['a', 'a']) (wins [two, many] ['a', 'a'])
        ∧ scan [many, two] ['a', 'a', 'b'] = .error (.noViableAlternative 2 0)
        ∧ scan [two, many] ['a', 'a', 'b'] = .error (.noViableAlternative 2 0) := by
  let many : Dfa := {
    alphabet := ['a'], label := "A", start := 0, finals := .ofList [1],
    states := .ofList [0, 1], transitions := ⟨[⟨0, 'a', 1⟩, ⟨1, 'a', 1⟩]⟩, sinks := ∅,
    target_mem_sinks := fun _ _ sink => absurd sink (SortedSet.not_mem_empty _),
    not_mem_sinks_of_mem_finals := fun _ _ => SortedSet.not_mem_empty _
  }
  let two : Dfa := {
    alphabet := ['a'], label := "AA", start := 0, finals := .ofList [2],
    states := .ofList [0, 1, 2], transitions := ⟨[⟨0, 'a', 1⟩, ⟨1, 'a', 2⟩]⟩, sinks := ∅,
    target_mem_sinks := fun _ _ sink => absurd sink (SortedSet.not_mem_empty _),
    not_mem_sinks_of_mem_finals := fun _ _ => SortedSet.not_mem_empty _
  }
  have start : many.start = 0 ∧ two.start = 0 := ⟨rfl, rfl⟩
  have live (q : State) : many.isSink q = false ∧ two.isSink q = false := ⟨rfl, rfl⟩
  have final
      : many.isFinal 1 = true ∧ two.isFinal 1 = false ∧ two.isFinal 2 = true := ⟨rfl, rfl, rfl⟩
  have steps
      : many.step 0 'a' = some 1 ∧ many.step 1 'a' = some 1
        ∧ two.step 0 'a' = some 1 ∧ two.step 1 'a' = some 2 := by
    simp only [Dfa.step_eq_head?]
    exact ⟨rfl, rfl, rfl, rfl⟩
  have stops
      : many.step 0 'b' = none ∧ many.step 1 'b' = none
        ∧ two.step 0 'b' = none ∧ two.step 2 'b' = none := by
    simp only [Dfa.step_eq_head?]
    exact ⟨rfl, rfl, rfl, rfl⟩
  have reordered : [many, two].Perm [two, many] := .swap ..
  refine ⟨many, two, rfl, rfl, reordered, ?_⟩
  clear_value many two
  obtain ⟨errors, tokens⟩ := scan_perm reordered ['a', 'a']
  obtain ⟨errors', _⟩ := scan_perm reordered ['a', 'a', 'b']
  have scanned : scan [many, two] ['a', 'a'] = .ok [⟨many.label, "aa"⟩] := by
    simp [scan, scanAll, scanFrom, Round.run, Runner.start, Runner.feed, Round.isOver,
      Round.winner?, Runner.best, Scanned.result, start, live, final, steps]
  have scanned' : scan [two, many] ['a', 'a'] = .ok [⟨two.label, "aa"⟩] := by
    simp [scan, scanAll, scanFrom, Round.run, Runner.start, Runner.feed, Round.isOver,
      Round.winner?, Runner.best, Scanned.result, start, live, final, steps]
  have failed : scan [many, two] ['a', 'a', 'b'] = .error (.noViableAlternative 2 0) := by
    simp [scan, scanAll, scanFrom, Round.run, Runner.start, Runner.feed, Round.isOver,
      Round.winner?, Runner.best, Scanned.result, Round.failure, Position.after, start, live,
      final, steps, stops]
  obtain ⟨_, _, _, _, _, agree⟩ := tokens _ scanned
  exact ⟨scanned, scanned', agree, failed, (errors' _).mp failed⟩

end Munch
