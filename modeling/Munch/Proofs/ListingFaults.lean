import Munch.Proofs.ListingBlocks

/-! Errors in texts of several listings. An error is about the first block of lines that is no
listing, and names its first line that does not suit its role; if the block is too short, it names
the line behind the block. All blocks above that one are listings.
-/

namespace Munch

namespace Text

variable {α β : Type} {isSeparator : α → Bool}

-----------------------------------------------------------------------------------------
-- The places of runs
-----------------------------------------------------------------------------------------

/-- The run stands between what is above and below it as one of the longest stretches of elements
that are no separators.
-/
structure IsRunIn (isSeparator : α → Bool) (items above run below : List α) : Prop where
  whole : items = above ++ run ++ below
  some : run ≠ []
  kept : ∀ a ∈ run, isSeparator a = false
  top : above.getLast?.all isSeparator = true
  bottom : below.head?.all isSeparator = true

/-- A run of what stands behind another run keeps its place behind it. -/
theorem IsRunIn.behind_run {first rest above run below : List α} (some : first ≠ [])
    (kept : ∀ a ∈ first, isSeparator a = false) (stop : rest.head?.all isSeparator = true)
    (h : IsRunIn isSeparator rest above run below)
    : IsRunIn isSeparator (first ++ rest) (first ++ above) run below
      ∧ runs isSeparator (first ++ above) = first :: runs isSeparator above := by
  cases above with
  | nil =>
      -- the next run does not begin where the first one ends
      obtain ⟨a, more, rfl⟩ := List.exists_cons_of_ne_nil h.some
      rw [h.whole, List.nil_append, List.cons_append, List.head?_cons, Option.all_some,
        h.kept a List.mem_cons_self] at stop
      cases stop
  | cons b above =>
      have begins : (b :: above).head?.all isSeparator = true := by
        rw [h.whole] at stop
        exact stop
      refine ⟨⟨?_, h.some, h.kept, ?_, h.bottom⟩, runs_append some kept begins⟩
      · rw [h.whole, List.append_assoc, List.append_assoc, List.append_assoc]
      · rw [List.getLast?_append_cons]
        exact h.top

/-- Each of the runs has its place, and those before it are the runs above. By induction along the
runs.
-/
theorem exists_isRunIn {items run : List α} {front back : List (List α)}
    (h : runs isSeparator items = front ++ run :: back)
    : ∃ above below,
        IsRunIn isSeparator items above run below ∧ runs isSeparator above = front := by
  induction items using runs_induction isSeparator generalizing front with
  | nil => exact absurd h.symm (by simp [runs])
  | separator a rest here ih =>
      rw [runs_cons_of_separator here] at h
      obtain ⟨above, below, place, same⟩ := ih h
      refine ⟨a :: above, below,
        ⟨congrArg (a :: ·) place.whole, place.some, place.kept, ?_, place.bottom⟩, ?_⟩
      · cases above with
        | nil => exact here
        | cons b above => exact place.top
      · rw [runs_cons_of_separator here, same]
  | run first rest some kept stop ih =>
      rw [runs_append some kept stop] at h
      cases front with
      | nil =>
          obtain ⟨rfl, rfl⟩ := List.cons.inj h
          exact ⟨[], rest, ⟨rfl, some, kept, rfl, stop⟩, rfl⟩
      | cons other front =>
          obtain ⟨rfl, later⟩ := List.cons.inj h
          obtain ⟨above, below, place, same⟩ := ih later
          obtain ⟨behind, runsAbove⟩ := place.behind_run some kept stop
          exact ⟨first ++ above, below, behind, same ▸ runsAbove⟩

/-- A run further up is one of the runs above. -/
theorem IsRunIn.mem_runs {items above run below above' run' below' : List α}
    (h : IsRunIn isSeparator items above run below)
    (h' : IsRunIn isSeparator items above' run' below') (higher : above'.length < above.length)
    : run' ∈ runs isSeparator above := by
  have same : above' ++ (run' ++ below') = above ++ (run ++ below) := by
    rw [← List.append_assoc, ← List.append_assoc, ← h'.whole, h.whole]
  obtain ⟨between, rfl, rest⟩ : ∃ between, above = above' ++ between
      ∧ run' ++ below' = between ++ (run ++ below) := by
    rcases List.append_eq_append_iff.mp same with ⟨between, whole, rest⟩ | ⟨between, whole, rest⟩
    · exact ⟨between, whole, rest⟩
    · rw [whole, List.length_append] at higher
      omega
  have some : between ≠ [] := by
    rintro rfl
    simp at higher
  have last : isSeparator (between.getLast some) = true := by
    have top := h.top
    rw [List.getLast?_append_of_ne_nil _ some, List.getLast?_eq_some_getLast some] at top
    exact top
  rcases List.append_eq_append_iff.mp rest with ⟨more, rfl, below⟩ | ⟨more, whole, _⟩
  · have stop : more.head?.all isSeparator = true := by
      cases more with
      | nil => rfl
      | cons b more =>
          have bottom := h'.bottom
          rw [below] at bottom
          exact bottom
    rw [runs_append_of_top h'.top, runs_append h'.some h'.kept stop]
    exact List.mem_append_right _ List.mem_cons_self
  · have inside : between.getLast some ∈ run' :=
      whole ▸ List.mem_append_left more (List.getLast_mem some)
    rw [h'.kept _ inside] at last
    cases last

/-- A run stays one when each element is mapped, if the separators are told by the images. -/
theorem IsRunIn.map {isSeparator : β → Bool} {f : α → β} {items above run below : List α}
    (h : IsRunIn (fun a => isSeparator (f a)) items above run below)
    : IsRunIn isSeparator (items.map f) (above.map f) (run.map f) (below.map f) where
  whole := by rw [h.whole, List.map_append, List.map_append]
  some := mt List.map_eq_nil_iff.mp h.some
  kept := List.forall_mem_map.mpr h.kept
  top := by rw [List.getLast?_map, Option.all_map]; exact h.top
  bottom := by rw [List.head?_map, Option.all_map]; exact h.bottom

/-- Every run stands in the list without a gap. -/
theorem infix_of_mem_runs {items run : List α} (h : run ∈ runs isSeparator items)
    : run <:+: items := by
  obtain ⟨front, back, split⟩ := List.append_of_mem h
  obtain ⟨above, below, place, _⟩ := exists_isRunIn split
  exact ⟨above, below, place.whole.symm⟩

end Text

namespace Listing

open Text

-----------------------------------------------------------------------------------------
-- Lines and their roles
-----------------------------------------------------------------------------------------

/-- What a line of a listing is there for. -/
inductive Role where
  | alphabet
  | label
  | startState
  | transition
  | finalStates
  deriving DecidableEq

/-- The role of the line with an index in a listing of some length: the last line has the final
states, whatever their number.
-/
def roleAt (length index : Nat) : Role :=
  if index + 1 = length then .finalStates
  else
    match index with
    | 0 => .alphabet
    | 1 => .label
    | 2 => .startState
    | _ => .transition

/-- The line can be read in the role. Every line is a label. -/
def Role.Suits : Role → List Char → Prop
  | .alphabet, line => ∃ symbols, unescapeAll? line = some symbols
  | .label, _ => True
  | .startState, line => ∃ q, SpellsState line q
  | .transition, line => ∃ t, SpellsTransition line t
  | .finalStates, line => ∃ states, List.Forall₂ SpellsState (words line) states

/-- The error names the line and repeats a part of it. -/
inductive Quotes (number : Nat) (line : List Char) : Error → Prop
  | state {part : List Char} (inside : part <:+: line)
    : Quotes number line (.invalidState number (.ofList part))
  | transition {part : List Char} (inside : part <:+: line)
    : Quotes number line (.invalidTransition number (.ofList part))
  | symbol {part : List Char} (inside : part <:+: line)
    : Quotes number line (.invalidSymbol number (.ofList part))

/-- An error about a state names the number of its line and quotes the text of the state. -/
theorem quotes_of_readState {number : Nat} {text line : List Char} {error : Error}
    (inside : text <:+: line) (failed : readState number text = .error error)
    : Quotes number line error := by
  unfold readState at failed
  split at failed
  · cases failed
  · obtain rfl := Except.error.inj failed
    exact .state inside

/-- An error about an alphabet names the number of its line and quotes the line. -/
theorem quotes_of_readAlphabet {line : Line} {error : Error}
    (failed : readAlphabet line = .error error)
    : Quotes line.number line.text error := by
  unfold readAlphabet at failed
  split at failed
  · cases failed
  · obtain rfl := Except.error.inj failed
    exact .symbol List.infix_rfl

/-- An error about a transition names the number of its line, and it quotes the line, its symbol or
one of its states.
-/
theorem quotes_of_readTransition {line : Line} {error : Error}
    (failed : readTransition line = .error error)
    : Quotes line.number line.text error := by
  unfold readTransition at failed
  split at failed
  · rename_i source rest first
    have outer := eq_append_of_cutAtFirst? first
    split at failed
    · rename_i spelling target last
      have inner := eq_append_of_cutAtLast? last
      split at failed
      · rcases bind_eq_error_iff.mp failed with failed | ⟨_, _, failed⟩
        · refine quotes_of_readState ?_ failed
          exact ⟨[], beforeSymbol ++ rest, by rw [outer]; simp⟩
        · rcases bind_eq_error_iff.mp failed with failed | ⟨_, _, failed⟩
          · refine quotes_of_readState ?_ failed
            exact ⟨source ++ beforeSymbol ++ spelling ++ afterSymbol, [],
              by rw [outer, inner]; simp⟩
          · cases failed
      · obtain rfl := Except.error.inj failed
        exact .symbol ⟨source ++ beforeSymbol, afterSymbol ++ target, by rw [outer, inner]; simp⟩
    · obtain rfl := Except.error.inj failed
      exact .transition List.infix_rfl
  · obtain rfl := Except.error.inj failed
    exact .transition List.infix_rfl

/-- An error about states names the number of their line and quotes the first one that is none. -/
theorem quotes_of_readStates {line : Line} {error : Error}
    (failed : readStates line = .error error)
    : Quotes line.number line.text error := by
  obtain ⟨front, word, back, split, _, failed⟩ := mapM_eq_error_iff.mp failed
  have mem : word ∈ words line.text := by simp [split]
  exact quotes_of_readState (infix_of_mem_runs mem) failed

/-- Reading the line in the role fails with the error. -/
def Role.Fails : Role → Line → Error → Prop
  | .alphabet, line, error => readAlphabet line = .error error
  | .label, _, _ => False
  | .startState, line, error => readState line.number line.text = .error error
  | .transition, line, error => readTransition line = .error error
  | .finalStates, line, error => readStates line = .error error

/-- Whatever the role of a line, an error about it names its number and quotes a part of it. -/
theorem Role.Fails.quotes {role : Role} {line : Line} {error : Error}
    (h : role.Fails line error)
    : Quotes line.number line.text error := by
  cases role with
  | alphabet => exact quotes_of_readAlphabet h
  | label => exact absurd h not_false
  | startState => exact quotes_of_readState List.infix_rfl h
  | transition => exact quotes_of_readTransition h
  | finalStates => exact quotes_of_readStates h

/-- A line about which there is an error does not suit its role, as reading succeeds on every line
that does.
-/
theorem Role.Fails.not_suits {role : Role} {line : Line} {error : Error}
    (h : role.Fails line error)
    : ¬role.Suits line.text := by
  intro suits
  cases role with
  | label => exact h
  | alphabet =>
      obtain ⟨_, letters⟩ := suits
      cases h.symm.trans (readAlphabet_eq_ok_iff.mpr letters)
  | startState =>
      obtain ⟨_, starts⟩ := suits
      cases h.symm.trans (readState_eq_ok_iff.mpr starts)
  | transition =>
      obtain ⟨_, step⟩ := suits
      cases h.symm.trans (readTransition_eq_ok_iff.mpr step)
  | finalStates =>
      obtain ⟨_, ends⟩ := suits
      cases h.symm.trans (readStates_eq_ok_iff.mpr ends)

-----------------------------------------------------------------------------------------
-- The first line of a block that does not suit its role
-----------------------------------------------------------------------------------------

/-- The first of four lines or more is the alphabet. -/
theorem roleAt_alphabet (more : Nat) : roleAt (more + 4) 0 = .alphabet :=
  if_neg (by omega)

/-- The second of four lines or more is the label. -/
theorem roleAt_label (more : Nat) : roleAt (more + 4) 1 = .label :=
  if_neg (by omega)

/-- The third of four lines or more is the start state. -/
theorem roleAt_startState (more : Nat) : roleAt (more + 4) 2 = .startState :=
  if_neg (by omega)

/-- Between the third line and the last one there are transitions. -/
theorem roleAt_transition {more index : Nat} (within : index < more)
    : roleAt (more + 4) (index + 3) = .transition :=
  if_neg (by omega)

/-- The last of four lines or more has the final states. -/
theorem roleAt_last (more : Nat) : roleAt (more + 4) (more + 3) = .finalStates :=
  if_pos rfl

/-- The lines suit the roles that they have at the beginning of a listing of some length. -/
def AllSuit (length : Nat) (front : List (List Char)) : Prop :=
  ∀ i line, front[i]? = some line → (roleAt length i).Suits line

/-- Where there are no lines, none is unsuitable. -/
theorem allSuit_nil (length : Nat) : AllSuit length [] :=
  nofun

/-- Lines suit their roles if those in front do and those behind suit the roles that they have
there.
-/
theorem AllSuit.append {length : Nat} {front back : List (List Char)} (h : AllSuit length front)
    (later : ∀ i line, back[i]? = some line → (roleAt length (front.length + i)).Suits line)
    : AllSuit length (front ++ back) := by
  intro i line found
  by_cases inFront : i < front.length
  · rw [List.getElem?_append_left inFront] at found
    exact h i line found
  · obtain ⟨distance, rfl⟩ := Nat.exists_eq_add_of_le (Nat.le_of_not_lt inFront)
    rw [List.getElem?_append_right (Nat.le_of_not_lt inFront), Nat.add_sub_cancel_left] at found
    exact later distance line found

/-- One more line at the end suits, if it does so at its place. -/
theorem AllSuit.concat {length : Nat} {front : List (List Char)} {line : List Char}
    (h : AllSuit length front) (here : (roleAt length front.length).Suits line)
    : AllSuit length (front ++ [line]) := by
  refine h.append fun i other found => ?_
  cases i with
  | zero => exact Option.some.inj found ▸ here
  | succ i => cases found

/-- Behind the first three lines there are transitions, up to the last line. -/
theorem AllSuit.append_transitions {more : Nat} {alphabet label start : List Char}
    {body : List (List Char)} (h : AllSuit (more + 4) [alphabet, label, start])
    (within : body.length ≤ more) (steps : ∀ line ∈ body, Role.transition.Suits line)
    : AllSuit (more + 4) (alphabet :: label :: start :: body) := by
  refine h.append fun i line found => ?_
  obtain ⟨inside, same⟩ := List.getElem?_eq_some_iff.mp found
  have role : roleAt (more + 4) (3 + i) = .transition := by
    rw [Nat.add_comm 3, roleAt_transition (Nat.lt_of_lt_of_le inside within)]
  exact role ▸ steps line (same ▸ List.getElem_mem inside)

/-- Reading four lines or more fails with the first of them that cannot be read in its role. -/
theorem exists_fails {block : List Line} {error : Error} (many : 4 ≤ block.length)
    (failed : readLines block = .error error)
    : ∃ front line back,
        block = front ++ line :: back
        ∧ AllSuit block.length (front.map Line.text)
        ∧ (roleAt block.length front.length).Fails line error := by
  obtain ⟨alphabet, label, start, body, last, rfl⟩ := exists_eq_concat many
  have length : (alphabet :: label :: start :: (body ++ [last])).length = body.length + 4 := by
    simp
  rw [length]
  rw [readLines_concat] at failed
  -- each step that succeeds lets one more line suit its role
  rcases bind_eq_error_iff.mp failed with failed | ⟨symbols, letters, failed⟩
  · exact ⟨[], alphabet, _, rfl, allSuit_nil _, roleAt_alphabet body.length ▸ failed⟩
  have letters : Role.alphabet.Suits alphabet.text := ⟨symbols, readAlphabet_eq_ok_iff.mp letters⟩
  have suits : AllSuit (body.length + 4) [alphabet.text, label.text] :=
    ((allSuit_nil _).concat (roleAt_alphabet _ ▸ letters)).concat (roleAt_label _ ▸ trivial)
  rcases bind_eq_error_iff.mp failed with failed | ⟨onset, starts, failed⟩
  · exact ⟨[alphabet, label], start, _, rfl, suits, roleAt_startState body.length ▸ failed⟩
  have starts : Role.startState.Suits start.text := ⟨onset, readState_eq_ok_iff.mp starts⟩
  have suits := suits.concat (roleAt_startState _ ▸ starts)
  rcases bind_eq_error_iff.mp failed with failed | ⟨transitions, steps, failed⟩
  · obtain ⟨front, line, back, rfl, earlier, failed⟩ := mapM_eq_error_iff.mp failed
    refine ⟨alphabet :: label :: start :: front, line, back ++ [last], by simp, ?_, ?_⟩
    · refine suits.append_transitions (by simp) (List.forall_mem_map.mpr ?_)
      intro line mem
      obtain ⟨t, read⟩ := earlier line mem
      exact ⟨t, readTransition_eq_ok_iff.mp read⟩
    · have within : front.length < (front ++ line :: back).length := by simp
      exact roleAt_transition within ▸ failed
  rcases bind_eq_error_iff.mp failed with failed | ⟨_, _, impossible⟩
  · refine ⟨alphabet :: label :: start :: body, last, [], rfl, ?_, ?_⟩
    · refine suits.append_transitions (by simp) (List.forall_mem_map.mpr ?_)
      intro line mem
      obtain ⟨t, -, read⟩ := exists_mem_of_forall₂ (mapM_eq_ok_iff.mp steps) mem
      exact ⟨t, readTransition_eq_ok_iff.mp read⟩
    · exact roleAt_last body.length ▸ failed
  · cases impossible

-----------------------------------------------------------------------------------------
-- The places of lines
-----------------------------------------------------------------------------------------

/-- A line of a text, where the first one has the number one. -/
def lineAt (texts : List (List Char)) : Nat → Option (List Char)
  | 0 => none
  | n + 1 => texts[n]?

/-- Behind some lines comes the first one of those below. -/
theorem lineAt_length_succ (above below : List (List Char))
    : lineAt (above ++ below) (above.length + 1) = below.head? := by
  rw [lineAt, List.getElem?_append_right (Nat.le_refl _), Nat.sub_self, List.head?_eq_getElem?]

/-- The line with the number of the lines above is the last one of them. -/
theorem lineAt_length {above : List (List Char)} (some : above ≠ []) (below : List (List Char))
    : lineAt (above ++ below) above.length = above.getLast? := by
  obtain ⟨front, last, rfl⟩ := List.eq_nil_or_concat above |>.resolve_left some
  simp [lineAt]

/-- Numbered lines that are cut in two have the texts and numbers of both parts. -/
theorem of_numbered_eq_append {first : Nat} {texts : List (List Char)} {front back : List Line}
    (h : numbered first texts = front ++ back)
    : texts = front.map Line.text ++ back.map Line.text
      ∧ front = numbered first (front.map Line.text)
      ∧ back = numbered (first + front.length) (back.map Line.text) := by
  have whole : texts = front.map Line.text ++ back.map Line.text := by
    rw [← List.map_append, ← h, map_text_numbered]
  rw [whole, numbered_append, List.length_map] at h
  have same : (numbered first (front.map Line.text)).length = front.length := by
    rw [length_numbered, List.length_map]
  obtain ⟨frontEq, backEq⟩ := List.append_inj h same
  exact ⟨whole, frontEq.symm, backEq.symm⟩

/-- Numbered lines that stand between others are numbered from there. -/
theorem run_eq_numbered {first : Nat} {texts : List (List Char)} {above run below : List Line}
    (whole : numbered first texts = above ++ run ++ below)
    : run = numbered (first + above.length) (run.map Line.text) := by
  rw [List.append_assoc] at whole
  obtain ⟨-, -, rest⟩ := of_numbered_eq_append whole
  exact (of_numbered_eq_append rest.symm).2.1

-----------------------------------------------------------------------------------------
-- Faults
-----------------------------------------------------------------------------------------

/-- What is wrong with a block of a text: it has too few lines and the error names the line behind
it, or one of its lines does not suit its role although those before it in the block suit theirs.
-/
inductive Fault (texts above block : List (List Char)) : Error → Prop
  | endsEarly {part : Part} (few : block.length < 4)
    (expected : [Part.alphabet, .label, .startState, .finalStates][block.length]? = some part)
    (last : lineAt texts (above.length + block.length) = block.getLast?)
    (behind : (lineAt texts (above.length + block.length + 1)).all List.isEmpty = true)
    : Fault texts above block (.missingLine (above.length + block.length + 1) part)
  | misfit {front back : List (List Char)} {line : List Char} {error : Error}
    (many : 4 ≤ block.length) (split : block = front ++ line :: back)
    (before : AllSuit block.length front)
    (here : ¬(roleAt block.length front.length).Suits line)
    (there : lineAt texts (above.length + front.length + 1) = some line)
    (quotes : Quotes (above.length + front.length + 1) line error)
    : Fault texts above block error

/-- A block of less than four lines lacks the line behind it. -/
theorem endsEarly_of_error {texts above block below : List (List Char)} {error : Error}
    (place : IsRunIn List.isEmpty texts above block below) (few : block.length < 4)
    (failed : readLines (numbered (above.length + 1) block) = .error error)
    : Fault texts above block error := by
  have last : lineAt texts (above.length + block.length) = block.getLast? := by
    have some : above ++ block ≠ [] := List.append_ne_nil_of_right_ne_nil above place.some
    rw [place.whole, ← List.length_append, lineAt_length some,
      List.getLast?_append_of_ne_nil _ place.some]
  have behind : (lineAt texts (above.length + block.length + 1)).all List.isEmpty = true := by
    rw [place.whole, ← List.length_append, lineAt_length_succ]
    exact place.bottom
  match block with
  | [] => exact absurd rfl place.some
  | [_] | [_, _] | [_, _, _] =>
      obtain rfl := Except.error.inj failed
      exact .endsEarly few rfl last behind

/-- A block of four lines or more has a line that does not suit its role. -/
theorem misfit_of_error {texts above block below : List (List Char)} {error : Error}
    (place : IsRunIn List.isEmpty texts above block below) (many : 4 ≤ block.length)
    (failed : readLines (numbered (above.length + 1) block) = .error error)
    : Fault texts above block error := by
  have many' : 4 ≤ (numbered (above.length + 1) block).length := by rwa [length_numbered]
  obtain ⟨front, line, back, split, before, fails⟩ := exists_fails many' failed
  rw [length_numbered] at before fails
  obtain ⟨whole, -, rest⟩ := of_numbered_eq_append split
  obtain ⟨here, -⟩ := List.cons.inj rest
  have number : line.number = above.length + (front.map Line.text).length + 1 := by
    rw [here, List.length_map, Nat.add_right_comm]
  have there : lineAt texts (above.length + (front.map Line.text).length + 1)
      = some line.text := by
    have next := lineAt_length_succ (above ++ front.map Line.text)
      (line.text :: back.map Line.text ++ below)
    rw [place.whole, whole, ← List.length_append]
    simpa using next
  refine .misfit many whole before ?_ there (number ▸ fails.quotes)
  rw [List.length_map]
  exact fails.not_suits

end Listing

open Listing Text

/-- An error in a text of listings is about one of the blocks of lines that empty lines divide, all
blocks above it are listings, and its number is the one of the first line with a fault.
-/
theorem Dfa.ofListings_eq_error {text : String} {error : Listing.Error}
    (failed : Dfa.ofListings text = .error error)
    : ∃ above block below,
        IsRunIn List.isEmpty (lines text.toList) above block below
        ∧ (∀ above' block' below',
            IsRunIn List.isEmpty (lines text.toList) above' block' below'
            → above'.length < above.length
            → ∃ dfa, readLines (numbered (above'.length + 1) block') = .ok dfa)
        ∧ Fault (lines text.toList) above block error := by
  obtain ⟨front, run, back, found, earlier, failed⟩ := mapM_eq_error_iff.mp failed
  obtain ⟨above, below, place, same⟩ := exists_isRunIn found
  have shown : IsRunIn List.isEmpty (lines text.toList) (above.map Line.text) (run.map Line.text)
      (below.map Line.text) := by
    rw [← map_text_numberedLines]
    exact place.map
  refine ⟨_, _, _, shown, ?_, ?_⟩
  · intro above' block' below' other higher
    have mem := shown.mem_runs other higher
    rw [runs_map] at mem
    obtain ⟨run', there, rfl⟩ := List.mem_map.mp mem
    obtain ⟨dfa, read⟩ := earlier run' (same ▸ there)
    refine ⟨dfa, readLines_eq_ok_iff.mpr ?_⟩
    rw [map_text_numbered]
    exact readLines_eq_ok_iff.mp read
  · have here : readLines (numbered ((above.map Line.text).length + 1) (run.map Line.text))
        = .error error := by
      rw [List.length_map, Nat.add_comm, ← run_eq_numbered place.whole]
      exact failed
    rcases Nat.lt_or_ge (run.map Line.text).length 4 with few | many
    · exact endsEarly_of_error shown few here
    · exact misfit_of_error shown many here

/-- In the second listing a quote is missing. -/
theorem Dfa.ofListings_missingQuote
    : Dfa.ofListings "b\nB\n0\n0\n\nab\nA\n0\n0,a',1\n1\n" = .error (.invalidTransition 9 "0,a',1")
      ∧ ∃ above block below,
          IsRunIn List.isEmpty (lines "b\nB\n0\n0\n\nab\nA\n0\n0,a',1\n1\n".toList) above block
              below
          ∧ Fault (lines "b\nB\n0\n0\n\nab\nA\n0\n0,a',1\n1\n".toList) above block
              (.invalidTransition 9 "0,a',1") := by
  have outcome
      : (Dfa.ofListings "b\nB\n0\n0\n\nab\nA\n0\n0,a',1\n1\n").map (List.map Dfa.label)
        = .error (.invalidTransition 9 "0,a',1") := by
    decide +kernel
  have failed := map_eq_error_iff.mp outcome
  obtain ⟨above, block, below, place, -, fault⟩ := Dfa.ofListings_eq_error failed
  exact ⟨failed, above, block, below, place, fault⟩

end Munch
