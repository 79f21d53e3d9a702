import Munch.Proofs.CompiledSinks
import Munch.Proofs.ListingFormat

/-! Listings that are read back. The lines of a listing spell the automaton with the same parts, and
they come back from the text one by one, unless the last of them is empty because there is no final
state. An automaton that was made of parts, read from a listing or compiled from an expression is
what its parts describe, so it comes back as it was.
-/

namespace Munch

open Text

namespace Listing

-----------------------------------------------------------------------------------------
-- The characters of a listing
-----------------------------------------------------------------------------------------

/-- Neither a line feed nor a carriage return stands in the line. -/
def Unbroken (line : List Char) : Prop :=
  ∀ c ∈ line, c ≠ '\n' ∧ c ≠ '\r'

instance (line : List Char) : Decidable (Unbroken line) :=
  List.decidableBAll _ line

/-- Two stretches together are unbroken if both are. -/
theorem unbroken_append {front back : List Char}
    : Unbroken (front ++ back) ↔ Unbroken front ∧ Unbroken back :=
  List.forall_mem_append

/-- No line feed stands in an unbroken line. -/
theorem Unbroken.not_mem {line : List Char} (h : Unbroken line) : '\n' ∉ line :=
  fun mem => (h _ mem).1 rfl

/-- An unbroken line has no carriage return at its end to lose. -/
theorem Unbroken.chomp_eq {line : List Char} (h : Unbroken line) : chomp line = line :=
  chomp_of_getLast?_ne fun last => (h _ (List.mem_of_getLast? last)).2 rfl

/-- No digit is white space. -/
theorem isWhite_of_isDigit {c : Char} (h : c.isDigit = true) : isWhite c = false := by
  have bounds : 48 ≤ c.toNat ∧ c.toNat ≤ 57 := by
    simpa [Char.isDigit, UInt32.le_iff_toNat_le] using h
  simp [isWhite, whiteIntervals]
  omega

/-- A number is written without any character that is no digit. -/
theorem not_mem_decimal {n : Nat} {c : Char} (h : c.isDigit = false) : c ∉ decimal n := by
  intro mem
  rw [isDigit_of_mem_decimal mem] at h
  cases h

/-- A digit ends no line. -/
theorem unbroken_of_isDigit {c : Char} (h : c.isDigit = true) : c ≠ '\n' ∧ c ≠ '\r' := by
  constructor
  · rintro rfl
    cases h
  · rintro rfl
    cases h

/-- A number is written without a line end. -/
theorem unbroken_decimal (n : Nat) : Unbroken (decimal n) :=
  fun _ mem => unbroken_of_isDigit (isDigit_of_mem_decimal mem)

/-- An escaped character has no line end in it, because line feeds and carriage returns are spelled
with letters.
-/
theorem unbroken_escape (c : Char) : Unbroken (escape c) := by
  unfold escape
  split_ifs with lineFeed tab carriageReturn backslash
  · decide
  · decide
  · decide
  · decide
  · intro d mem
    obtain rfl := List.mem_singleton.mp mem
    exact ⟨lineFeed, carriageReturn⟩

/-- The line of an alphabet is unbroken. -/
theorem unbroken_alphabetLine (alphabet : List Char) : Unbroken (alphabetLine alphabet) := by
  intro c mem
  obtain ⟨symbol, _, mem⟩ := List.mem_flatMap.mp mem
  exact unbroken_escape symbol c mem

/-- The line of a transition of a deterministic automaton. -/
def lineOf (t : Transition Char) : List Char :=
  transitionLine t.source (escape t.symbol) t.target

/-- The line of a transition is unbroken. -/
theorem unbroken_lineOf (t : Transition Char) : Unbroken (lineOf t) := by
  have before : Unbroken beforeSymbol := by decide
  have after : Unbroken afterSymbol := by decide
  simp only [lineOf, transitionLine, unbroken_append]
  exact ⟨⟨⟨⟨unbroken_decimal _, before⟩, unbroken_escape _⟩, after⟩, unbroken_decimal _⟩

/-- The line of some states is unbroken. -/
theorem unbroken_statesLine (states : List State) : Unbroken (statesLine states) := by
  intro c mem
  rcases mem_intercalate mem with space | ⟨number, written, digit⟩
  · obtain rfl := List.mem_singleton.mp space
    decide
  · obtain ⟨q, _, rfl⟩ := List.mem_map.mp written
    exact unbroken_decimal q c digit

-----------------------------------------------------------------------------------------
-- Empty lines
-----------------------------------------------------------------------------------------

/-- The line of an alphabet is not empty, since it spells the alphabet. -/
theorem alphabetLine_ne_nil {alphabet : List Char} (some : alphabet ≠ [])
    : alphabetLine alphabet ≠ [] := by
  intro none
  have back := unescapeAll?_flatMap_escape alphabet
  rw [← alphabetLine, none] at back
  exact some (Option.some.inj back).symm

/-- Only the empty text is an alphabet without symbols. -/
theorem eq_nil_of_unescapeAll? {text : List Char} (h : unescapeAll? text = some [])
    : text = [] := by
  unfold unescapeAll? at h
  split at h
  · rfl
  · cases h
  · obtain ⟨_, _, h⟩ := Option.bind_eq_some_iff.mp h
    obtain ⟨_, _, h⟩ := Option.bind_eq_some_iff.mp h
    cases h
  · obtain ⟨_, _, h⟩ := Option.map_eq_some_iff.mp h
    cases h

/-- The line of some states is empty only if there are none. -/
theorem statesLine_eq_nil_iff {states : List State} : statesLine states = [] ↔ states = [] := by
  cases states with
  | nil => simp [statesLine]
  | cons q states =>
      cases states with
      | nil => simp [statesLine, decimal_ne_nil]
      | cons next states => simp [statesLine, List.intercalate_cons_cons]

/-- The line of a transition is never empty. -/
theorem lineOf_ne_nil (t : Transition Char) : lineOf t ≠ [] := by
  simp [lineOf, transitionLine, beforeSymbol]

-----------------------------------------------------------------------------------------
-- The lines of a listing spell the automaton
-----------------------------------------------------------------------------------------

/-- The number of a state in decimal spells the state, if it is one of one word. -/
theorem spellsState_decimal {q : State} (small : q < wordLimit) : SpellsState (decimal q) q := by
  have dark (c : Char) (mem : c ∈ decimal q) : isWhite c = false :=
    isWhite_of_isDigit (isDigit_of_mem_decimal mem)
  rw [SpellsState, trim_of_forall_not dark, readDecimal?_decimal small]

/-- The marks of a transition are found, whatever its symbol: no mark begins in the source, and none
behind the one that ends the symbol.
-/
theorem spellsTransition_lineOf {t : Transition Char} (source : t.source < wordLimit)
    (target : t.target < wordLimit)
    : SpellsTransition (lineOf t) t := by
  have first : cutAtFirst? beforeSymbol (lineOf t)
      = some (decimal t.source, escape t.symbol ++ afterSymbol ++ decimal t.target) := by
    have cut : cutAtFirst? beforeSymbol (decimal t.source ++ beforeSymbol ++ _) = some (_, _) :=
      cutAtFirst?_append (not_mem_decimal rfl)
        (escape t.symbol ++ afterSymbol ++ decimal t.target)
    simpa only [lineOf, transitionLine, List.append_assoc] using cut
  have quote : '\'' ∉ [','] ++ decimal t.target := by
    rw [List.mem_append, not_or]
    exact ⟨by decide, not_mem_decimal rfl⟩
  exact .intro first (cutAtLast?_append quote _) (readSymbol?_escape _) (spellsState_decimal source)
    (spellsState_decimal target)

/-- The words of the line of some states spell them one by one. -/
theorem spellsStates_statesLine {states : List State} (small : ∀ q ∈ states, q < wordLimit)
    : List.Forall₂ SpellsState (words (statesLine states)) states := by
  have dark : ∀ piece ∈ states.map decimal, piece ≠ [] ∧ ∀ c ∈ piece, isWhite c = false := by
    intro piece mem
    obtain ⟨q, _, rfl⟩ := List.mem_map.mp mem
    exact ⟨decimal_ne_nil q, fun c digit => isWhite_of_isDigit (isDigit_of_mem_decimal digit)⟩
  rw [statesLine, words_intercalate dark, List.forall₂_map_left_iff, List.forall₂_same]
  exact fun q mem => spellsState_decimal (small q mem)

/-- A numeral has digits in it, and perhaps a plus sign. -/
theorem of_mem_of_readDecimal? {text : List Char} {n : Nat} {c : Char}
    (h : readDecimal? text = some n) (mem : c ∈ text)
    : c = '+' ∨ c.isDigit = true := by
  have digits : ∀ c ∈ unsigned text, c.isDigit = true := by
    unfold readDecimal? at h
    grind
  unfold unsigned at digits
  split at digits
  · exact (List.mem_cons.mp mem).imp_right (digits c)
  · exact Or.inr (digits c mem)

/-- A transition is no line of final states, since its comma stands in some word. -/
theorem not_spellsStates_lineOf {t : Transition Char} {states : List State}
    : ¬List.Forall₂ SpellsState (words (lineOf t)) states := by
  intro spelled
  have comma : ',' ∈ lineOf t := by simp [lineOf, transitionLine, beforeSymbol]
  obtain ⟨word, there, mem⟩ := exists_mem_runs comma (by decide : isWhite ',' = false)
  obtain ⟨q, _, number⟩ := exists_mem_of_forall₂ spelled there
  have dark (c : Char) (mem : c ∈ word) : isWhite c = false := (of_mem_runs there mem).2
  rw [SpellsState, trim_of_forall_not dark] at number
  have digit := of_mem_of_readDecimal? number mem
  exact absurd digit (by decide)

end Listing

open Listing

namespace Dfa

/-- Every state that a listing of the automaton mentions has a number of one word. -/
structure WordSized (dfa : Dfa) : Prop where
  start : dfa.start < wordLimit
  finals : ∀ q ∈ dfa.finals, q < wordLimit
  ends : ∀ t ∈ dfa.transitions, t.source < wordLimit ∧ t.target < wordLimit

/-- The lines of a listing before that of the final states. -/
def bodyLines (dfa : Dfa) : List (List Char) :=
  alphabetLine dfa.alphabet :: dfa.label.toList :: decimal dfa.start
    :: dfa.transitions.toList.map lineOf

/-- The line of the final states stands behind all others. -/
theorem listingLines_eq (dfa : Dfa)
    : dfa.listingLines = dfa.bodyLines ++ [statesLine dfa.finals.toList] :=
  rfl

/-- The lines of a listing spell the automaton with the same parts. -/
theorem spells_listingLines {dfa : Dfa} (sized : dfa.WordSized)
    : Spells dfa.listingLines dfa.rebuilt := by
  have steps : List.Forall₂ SpellsTransition (dfa.transitions.toList.map lineOf)
      dfa.transitions.toList := by
    rw [List.forall₂_map_left_iff, List.forall₂_same]
    intro t mem
    exact spellsTransition_lineOf (sized.ends t mem).1 (sized.ends t mem).2
  have spelled : Spells dfa.listingLines (.ofParts dfa.alphabet (.ofList dfa.label.toList) dfa.start
      (.ofList dfa.finals.toList) ⟨dfa.transitions.toList⟩) :=
    .intro (unescapeAll?_flatMap_escape dfa.alphabet) (spellsState_decimal sized.start) steps
      (spellsStates_statesLine sized.finals)
  rwa [String.ofList_toList, SortedSet.ofList_toList] at spelled

/-- Without the line of the final states no automaton is spelled. -/
theorem not_spells_of_last_lineOf {alphabet label start : List Char}
    {transitions : List (Transition Char)} {dfa : Dfa}
    : ¬Spells (alphabet :: label :: start :: transitions.map lineOf) dfa := by
  intro spelled
  generalize same : transitions.map lineOf = lines at spelled
  cases spelled with
  | @intro _ _ _ last body _ _ _ _ _ _ _ ends =>
      have mem : last ∈ transitions.map lineOf := by simp [same]
      obtain ⟨t, _, rfl⟩ := List.mem_map.mp mem
      exact not_spellsStates_lineOf ends

-----------------------------------------------------------------------------------------
-- The lines come back from the text
-----------------------------------------------------------------------------------------

/-- Joined lines are all but the last one with a line feed behind each, and the last one. -/
theorem joinLines_concat (front : List (List Char)) (last : List Char)
    : joinLines (front ++ [last]) = front.flatMap (· ++ ['\n']) ++ last := by
  induction front with
  | nil => exact List.intercalate_singleton
  | cons line front ih =>
      have some : front ++ [last] ≠ [] := List.concat_ne_nil last front
      rw [List.flatMap_cons, List.append_assoc, ← ih, joinLines, List.cons_append,
        List.intercalate_cons_of_ne_nil some]
      rfl

/-- A listing is its body, with a line feed behind each line, and the line of the final states. -/
theorem toList_listing (dfa : Dfa)
    : dfa.listing.toList = dfa.bodyLines.flatMap (· ++ ['\n']) ++ statesLine dfa.finals.toList := by
  rw [listing, String.toList_ofList, listingLines_eq, joinLines_concat]

/-- The line of the final states is empty exactly if there are none. -/
theorem finalsLine_eq_nil_iff {dfa : Dfa} : statesLine dfa.finals.toList = [] ↔ dfa.finals = ∅ := by
  rw [statesLine_eq_nil_iff, SortedSet.toList_eq_nil_iff]

/-- The line before that of the final states is not empty. -/
theorem exists_bodyLines_eq (dfa : Dfa)
    : ∃ front last, dfa.bodyLines = front ++ [last] ∧ last ≠ [] ∧ Unbroken last := by
  have some : decimal dfa.start :: dfa.transitions.toList.map lineOf ≠ [] := List.cons_ne_nil _ _
  obtain ⟨rest, last, same⟩ : ∃ rest last, decimal dfa.start :: _ = rest ++ [last] :=
    ⟨_, _, (List.dropLast_append_getLast some).symm⟩
  refine ⟨alphabetLine dfa.alphabet :: dfa.label.toList :: rest, last, ?_, ?_⟩
  · rw [bodyLines, same]
    rfl
  · have mem : last ∈ decimal dfa.start :: dfa.transitions.toList.map lineOf := by simp [same]
    rcases List.mem_cons.mp mem with rfl | stored
    · exact ⟨decimal_ne_nil _, unbroken_decimal _⟩
    · obtain ⟨t, _, rfl⟩ := List.mem_map.mp stored
      exact ⟨lineOf_ne_nil t, unbroken_lineOf t⟩

/-- No line before that of the final states holds a line feed, if the label does not. -/
theorem not_mem_of_mem_bodyLines {dfa : Dfa} (whole : '\n' ∉ dfa.label.toList)
    : ∀ line ∈ dfa.bodyLines, '\n' ∉ line := by
  simp only [bodyLines, List.forall_mem_cons, List.forall_mem_map]
  exact ⟨(unbroken_alphabetLine _).not_mem, whole, (unbroken_decimal _).not_mem,
    fun t _ => (unbroken_lineOf t).not_mem⟩

/-- Of the lines of a listing only the label can end in a carriage return. -/
theorem map_chomp_bodyLines (dfa : Dfa)
    : dfa.bodyLines.map chomp = alphabetLine dfa.alphabet :: chomp dfa.label.toList
        :: decimal dfa.start :: dfa.transitions.toList.map lineOf := by
  have steps : (dfa.transitions.toList.map lineOf).map chomp
      = dfa.transitions.toList.map lineOf := by
    rw [List.map_map]
    exact List.map_congr_left fun t _ => (unbroken_lineOf t).chomp_eq
  rw [bodyLines, List.map_cons, List.map_cons, List.map_cons, steps,
    (unbroken_alphabetLine _).chomp_eq, (unbroken_decimal _).chomp_eq]

/-- The lines of a listing as they are read: without a carriage return at the end of the label, and
without a last line that is empty.
-/
def linesRead (dfa : Dfa) : List (List Char) :=
  dfa.bodyLines.map chomp ++ if dfa.finals = ∅ then [] else [statesLine dfa.finals.toList]

/-- If its label has no line feed, a listing is read line by line as it was written, but for a
carriage return at the end of the label and an empty last line.
-/
theorem lines_listing {dfa : Dfa} (whole : '\n' ∉ dfa.label.toList)
    : lines (dropEndWhile (· = '\n') dfa.listing.toList) = dfa.linesRead := by
  have wholeBody := not_mem_of_mem_bodyLines whole
  rw [toList_listing, linesRead]
  split
  · rename_i none
    obtain ⟨front, last, body, some, unbroken⟩ := dfa.exists_bodyLines_eq
    have wholeFront : ∀ line ∈ front, '\n' ∉ line := fun line mem =>
      wholeBody line (body ▸ List.mem_append_left [last] mem)
    have comesBack := lines_dropEndWhile wholeFront unbroken.not_mem some fun c mem =>
      (List.mem_singleton.mp mem : c = '\n')
    -- the line feed behind the last line of the body is all that stands for the final states
    have text : dfa.bodyLines.flatMap (· ++ ['\n']) ++ statesLine dfa.finals.toList
        = front.flatMap (· ++ ['\n']) ++ last ++ ['\n'] := by
      rw [finalsLine_eq_nil_iff.mpr none, body]
      simp
    rw [text, comesBack, body, List.map_append, List.map_singleton, unbroken.chomp_eq,
      List.append_nil]
  · rename_i some
    have last : statesLine dfa.finals.toList ≠ [] := mt finalsLine_eq_nil_iff.mp some
    have none : ∀ c ∈ ([] : List Char), c = '\n' := by simp
    have comesBack := lines_dropEndWhile wholeBody (unbroken_statesLine _).not_mem last none
    rwa [List.append_nil] at comesBack

-----------------------------------------------------------------------------------------
-- The automaton comes back from the listing
-----------------------------------------------------------------------------------------

/-- The lines that are read spell the automaton if the label and the last line are whole. -/
theorem spells_linesRead {dfa : Dfa} (sized : dfa.WordSized)
    (stop : dfa.label.toList.getLast? ≠ some '\r') (final : dfa.finals ≠ ∅)
    : Spells dfa.linesRead dfa.rebuilt := by
  have same : dfa.linesRead = dfa.listingLines := by
    rw [linesRead, map_chomp_bodyLines, chomp_of_getLast?_ne stop, if_neg final, listingLines_eq,
      bodyLines]
  rw [same]
  exact spells_listingLines sized

/-- The second line spells the label. -/
theorem label_of_spells {alphabet label : List Char} {more : List (List Char)} {dfa : Dfa}
    (h : Spells (alphabet :: label :: more) dfa)
    : dfa.label = .ofList label := by
  cases h
  rfl

/-- What the lines that are read spell has the label as it is read, and there is a final state. -/
theorem of_spells_linesRead {dfa other : Dfa} (h : Spells dfa.linesRead other)
    : dfa.finals ≠ ∅ ∧ other.label = .ofList (chomp dfa.label.toList) := by
  rw [linesRead, map_chomp_bodyLines] at h
  constructor
  · intro none
    rw [if_pos none, List.append_nil] at h
    exact not_spells_of_last_lineOf h
  · exact label_of_spells h

/-- A listing is read back exactly if it has a final state, as the automaton of its parts. -/
theorem ofListing_listing_eq_ok_iff {dfa again : Dfa} (sized : dfa.WordSized)
    (whole : '\n' ∉ dfa.label.toList) (stop : dfa.label.toList.getLast? ≠ some '\r')
    : ofListing dfa.listing = .ok again ↔ dfa.finals ≠ ∅ ∧ dfa.rebuilt = again := by
  have reads (other : Dfa) : ofListing dfa.listing = .ok other ↔ Spells dfa.linesRead other := by
    rw [ofListing_eq_ok_iff, lines_listing whole]
  have comesBack (final : dfa.finals ≠ ∅) : ofListing dfa.listing = .ok dfa.rebuilt :=
    (reads _).mpr (spells_linesRead sized stop final)
  constructor
  · intro read
    have final := (of_spells_linesRead ((reads again).mp read)).1
    exact ⟨final, Except.ok.inj ((comesBack final).symm.trans read)⟩
  · rintro ⟨final, rfl⟩
    exact comesBack final

/-- The automaton was made of its parts, read from a listing, or compiled from an expression. -/
inductive Described : Dfa → Prop
  | parts (alphabet : List Char) (label : String) (start : State) (finals : StateSet)
    (transitions : Transitions Char)
    : Described (.ofParts alphabet label start finals transitions)
  | listing {text : String} {dfa : Dfa} (read : ofListing text = .ok dfa) : Described dfa
  | regex {pattern label : String} {dfa : Dfa} (compiled : ofRegex pattern label = .ok dfa)
    : Described dfa

/-- What a listing spells is made of its parts, and so are its states and sinks. -/
theorem rebuilt_of_spells {texts : List (List Char)} {dfa : Dfa} (h : Spells texts dfa)
    : dfa.rebuilt = dfa := by
  cases h
  rfl

/-- Each way to describe an automaton gives one whose states and sinks are those that its parts
give.
-/
theorem Described.rebuilt_eq {dfa : Dfa} (h : dfa.Described) : dfa.rebuilt = dfa := by
  cases h with
  | parts => rfl
  | listing read => exact rebuilt_of_spells (ofListing_eq_ok_iff.mp read)
  | regex compiled =>
      obtain ⟨tree, _, compiled⟩ := bind_eq_ok_iff.mp compiled
      obtain rfl := Except.ok.inj compiled
      exact rebuilt_ofTree tree _

/-- An automaton whose label fits on a line is read back from its listing exactly if it has a final
state. What is read has the same parts and takes the same steps; and it has the same states and the
same sinks, unless the automaton had others than its parts call for.
-/
theorem ofListing_listing {dfa : Dfa} (sized : dfa.WordSized) (whole : '\n' ∉ dfa.label.toList)
    (stop : dfa.label.toList.getLast? ≠ some '\r')
    : ((∃ again, ofListing dfa.listing = .ok again) ↔ dfa.finals ≠ ∅)
      ∧ ∀ again, ofListing dfa.listing = .ok again →
          again.alphabet = dfa.alphabet ∧ again.label = dfa.label ∧ again.start = dfa.start
          ∧ again.finals = dfa.finals ∧ again.transitions = dfa.transitions
          ∧ (∀ q c, again.step q c = dfa.step q c)
          ∧ (dfa.Described → again.states = dfa.states ∧ again.sinks = dfa.sinks) := by
  simp only [ofListing_listing_eq_ok_iff sized whole stop]
  refine ⟨⟨fun ⟨_, final, _⟩ => final, fun final => ⟨_, final, rfl⟩⟩, ?_⟩
  rintro again ⟨_, rfl⟩
  refine ⟨rfl, rfl, rfl, rfl, rfl, ?_, ?_⟩
  · intro q c
    rw [step_eq_head?, step_eq_head?]
    rfl
  · intro described
    rw [described.rebuilt_eq]
    exact ⟨rfl, rfl⟩

/-- Symbols that are marks of the format or call for an escape, a symbol twice in the alphabet and
none of them in order, the largest numbers, and a carriage return inside the label.
-/
def awkward : Dfa :=
  .ofParts ['\r', ',', '\'', '\\', '\n', ',', '\t', 'λ'] "A\rB" (wordLimit - 1)
    (.ofList [7, wordLimit - 2])
    ⟨[
      ⟨wordLimit - 1, ',', 7⟩, ⟨7, '\'', wordLimit - 2⟩, ⟨7, '\\', 3⟩, ⟨3, '\n', 3⟩, ⟨7, '\r', 7⟩,
      ⟨7, '\r', 3⟩, ⟨wordLimit - 1, '\t', 7⟩, ⟨7, 'λ', 7⟩
    ]⟩

/-- The awkward automaton is written and read back with all its parts. -/
theorem ofListing_listing_awkward
    : awkward.WordSized ∧ '\n' ∉ awkward.label.toList
      ∧ awkward.label.toList.getLast? ≠ some '\r'
      ∧ ∃ again, ofListing awkward.listing = .ok again
          ∧ again.alphabet = ['\r', ',', '\'', '\\', '\n', ',', '\t', 'λ']
          ∧ again.label = "A\rB" ∧ again.start = wordLimit - 1
          ∧ again.finals = .ofList [7, wordLimit - 2] ∧ again.transitions = awkward.transitions
          ∧ again.step 7 '\r' = some 7
          ∧ again.states = awkward.states ∧ again.sinks = awkward.sinks := by
  have sized : awkward.WordSized := ⟨by decide, by decide, by decide⟩
  have whole : '\n' ∉ awkward.label.toList := by decide
  have stop : awkward.label.toList.getLast? ≠ some '\r' := by decide
  obtain ⟨reads, same⟩ := ofListing_listing sized whole stop
  obtain ⟨again, read⟩ := reads.mpr (by decide)
  obtain ⟨alphabet, label, start, finals, transitions, steps, described⟩ := same again read
  have step : awkward.step 7 '\r' = some 7 := by
    rw [step_eq_head?]
    decide
  exact ⟨sized, whole, stop, again, read, alphabet, label, start, finals, transitions,
    (steps 7 '\r').trans step, described (.parts ..)⟩

end Dfa

end Munch
