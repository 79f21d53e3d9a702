import Munch.Proofs.ListingFormat

/-! Texts of several listings. Where empty lines stand between them, each listing is read as if it
stood alone, and an error in it names its line in the whole text.
-/

namespace Munch

namespace Text

variable {α : Type} {isSeparator : α → Bool}

-----------------------------------------------------------------------------------------
-- Lines of texts that are put together
-----------------------------------------------------------------------------------------

/-- The character is put at the front of the first line, whatever lines are behind the others. -/
theorem consFirst_append {a : α} {items : List (List α)} (some : items ≠ [])
    (more : List (List α))
    : consFirst a (items ++ more) = consFirst a items ++ more := by
  obtain ⟨first, rest, rfl⟩ := List.exists_cons_of_ne_nil some
  rfl

/-- A character at the front of the first line adds no line. -/
theorem length_consFirst {a : α} {items : List (List α)} (some : items ≠ [])
    : (consFirst a items).length = items.length := by
  obtain ⟨first, rest, rfl⟩ := List.exists_cons_of_ne_nil some
  rfl

/-- With a character in it there is a first line. -/
theorem consFirst_ne_nil {a : α} {items : List (List α)} : consFirst a items ≠ [] := by
  cases items <;> exact List.cons_ne_nil _ _

/-- A text with a character has a line. -/
theorem lines_ne_nil {text : List Char} (some : text ≠ []) : lines text ≠ [] := by
  fun_cases lines text with
  | case1 => exact absurd rfl some
  | case2 | case3 => exact List.cons_ne_nil _ _
  | case4 => exact consFirst_ne_nil

/-- A text that does not end with a line end comes before an empty line with its own lines. By
induction on its lines.
-/
theorem lines_append {text rest : List Char} {more : List (List Char)} (some : text ≠ [])
    (noFeed : text.getLast? ≠ .some '\n') (noReturn : text.getLast? ≠ .some '\r')
    (feed : lines rest = [] :: more)
    : lines (text ++ rest) = lines text ++ more := by
  fun_induction lines text with
  | case1 => exact absurd rfl some
  | case2 text ih | case3 text ih =>
      cases text with
      | nil => exact absurd rfl noFeed
      | cons d text => exact congrArg ([] :: ·) (ih (List.cons_ne_nil d text) noFeed noReturn)
  | case4 c text other pair ih =>
      cases text with
      | nil =>
          have alone : c = '\r' → rest.head? ≠ .some '\n' := fun same =>
            absurd (congrArg Option.some same) noReturn
          rw [List.singleton_append, lines_cons other alone, feed]
          rfl
      | cons d text =>
          have next : c = '\r' → (d :: text).head? ≠ .some '\n' := by
            rintro rfl begins
            obtain ⟨more, same⟩ := List.head?_eq_some_iff.mp begins
            exact pair more rfl same
          have longer
              : lines (c :: (d :: text ++ rest)) = consFirst c (lines (d :: text ++ rest)) :=
            lines_cons other next
          rw [List.cons_append, longer, ih (List.cons_ne_nil d text) noFeed noReturn,
            consFirst_append (lines_ne_nil (List.cons_ne_nil d text))]

/-- Every line feed makes a line, and so does what follows the last of them. -/
theorem length_lines (text : List Char)
    : (lines text).length
      = text.count '\n' + if text.getLast?.all (· = '\n') then 0 else 1 := by
  fun_induction lines text with
  | case1 => rfl
  | case2 text ih | case3 text ih =>
      cases text with
      | nil => rfl
      | cons d text =>
          simp only [List.length_cons, ih, List.getLast?_cons_cons, List.count_cons (a := '\n')]
          simp
          omega
  | case4 c text other pair ih =>
      cases text with
      | nil =>
          have alone : c ≠ '\n' := other
          simp [lines, consFirst, alone]
      | cons d text =>
          rw [length_consFirst (lines_ne_nil (List.cons_ne_nil d text)), ih,
            List.count_cons_of_ne other, List.getLast?_cons_cons]

/-- Line ends and nothing else: line feeds, some of them with a carriage return before them. -/
inductive LineEnds : List Char → Prop
  | none : LineEnds []
  | lineFeed {ends : List Char} (more : LineEnds ends) : LineEnds ('\n' :: ends)
  | returnAndFeed {ends : List Char} (more : LineEnds ends) : LineEnds ('\r' :: '\n' :: ends)

/-- Each line end at the beginning of a line makes an empty line. -/
theorem LineEnds.lines_append {ends : List Char} (h : LineEnds ends) (rest : List Char)
    : lines (ends ++ rest) = List.replicate (ends.count '\n') [] ++ lines rest := by
  induction h with
  | none => rfl
  | lineFeed _ ih =>
      rw [List.count_cons_self, List.replicate_succ]
      exact congrArg ([] :: ·) ih
  | returnAndFeed _ ih =>
      rw [List.count_cons_of_ne (by decide), List.count_cons_self, List.replicate_succ]
      exact congrArg ([] :: ·) ih

/-- Line ends stop with a line feed, if there are any. -/
theorem LineEnds.all_getLast? {ends : List Char} (h : LineEnds ends)
    : ends.getLast?.all (· = '\n') = true := by
  induction h with
  | none => rfl
  | @lineFeed ends _ ih | @returnAndFeed ends _ ih =>
      cases ends with
      | nil => rfl
      | cons c ends => exact ih

/-- Line ends without a line feed are none. -/
theorem LineEnds.eq_nil_or_exists_count {ends : List Char} (h : LineEnds ends)
    : ends = [] ∨ ∃ more, ends.count '\n' = more + 1 := by
  cases h with
  | none => exact Or.inl rfl
  | lineFeed _ => exact Or.inr ⟨_, List.count_cons_self⟩
  | returnAndFeed _ =>
      rw [List.count_cons_of_ne (by decide)]
      exact Or.inr ⟨_, List.count_cons_self⟩

end Text

namespace Listing

open Text

-----------------------------------------------------------------------------------------
-- Lines further down
-----------------------------------------------------------------------------------------

/-- The error in a text with more lines above it: only its line is another one. -/
def Error.later (distance : Nat) : Error → Error
  | .missingLine line expected => .missingLine (line + distance) expected
  | .invalidState line text => .invalidState (line + distance) text
  | .invalidTransition line text => .invalidTransition (line + distance) text
  | .invalidSymbol line text => .invalidSymbol (line + distance) text

/-- The line in a text with more lines above it. -/
def Line.later (distance : Nat) (line : Line) : Line :=
  ⟨line.number + distance, line.text⟩

/-- A state is read wherever its line stands, and an error names the line where it stands. -/
theorem readState_later (distance number : Nat) (text : List Char)
    : readState (number + distance) text = (readState number text).mapError (.later distance) := by
  unfold readState
  split <;> rfl

/-- An alphabet is read wherever its line stands, and an error names the line where it stands. -/
theorem readAlphabet_later (distance : Nat) (line : Line)
    : readAlphabet (line.later distance) = (readAlphabet line).mapError (.later distance) := by
  simp only [readAlphabet, Line.later]
  split <;> rfl

/-- States are read wherever their line stands, and an error names the line where it stands. -/
theorem readStates_later (distance : Nat) (line : Line)
    : readStates (line.later distance) = (readStates line).mapError (.later distance) := by
  simp only [readStates, Line.later, ← mapM_mapError, ← readState_later]

/-- A transition is read wherever its line stands, and an error names the line where it stands. -/
theorem readTransition_later (distance : Nat) (line : Line)
    : readTransition (line.later distance)
      = (readTransition line).mapError (.later distance) := by
  simp only [readTransition, Line.later]
  split
  · split
    · split
      · simp only [readState_later, mapError_bind]
        rfl
      · rfl
    · rfl
  · rfl

/-- Lines are read wherever they stand; that shows in an error only. -/
theorem readLines_later (distance : Nat) {block : List Line} (some : block ≠ [])
    : readLines (block.map (.later distance))
      = (readLines block).mapError (.later distance) := by
  match block with
  | [] => exact absurd rfl some
  | [last] | [_, last] | [_, _, last] =>
      simp [readLines, Line.later, Except.mapError, Error.later, Nat.add_right_comm]
  | first :: second :: third :: fourth :: more =>
      have many : 4 ≤ (first :: second :: third :: fourth :: more).length :=
        Nat.le_add_left 4 more.length
      obtain ⟨alphabet, label, start, body, last, split⟩ := exists_eq_concat many
      have starts : readState (start.later distance).number (start.later distance).text
          = (readState start.number start.text).mapError (.later distance) :=
        readState_later distance start.number start.text
      rw [split]
      simp only [List.map_cons, List.map_append, List.map_nil, readLines_concat, mapError_bind,
        List.mapM_map, Function.comp_def, readAlphabet_later, starts, readTransition_later,
        readStates_later, mapM_mapError]
      rfl

/-- The first line has the first number, and the others are numbered from the next one on. -/
theorem numbered_cons (first : Nat) (text : List Char) (texts : List (List Char))
    : numbered first (text :: texts) = ⟨first, text⟩ :: numbered (first + 1) texts :=
  rfl

/-- Lines behind others are numbered from where those end. -/
theorem numbered_append (first : Nat) (front back : List (List Char))
    : numbered first (front ++ back)
      = numbered first front ++ numbered (first + front.length) back := by
  simp [numbered, List.zipIdx_append]

/-- Lines below more lines are those that are numbered from further down, by induction on the lines.
-/
theorem map_later_numbered (distance first : Nat) (texts : List (List Char))
    : (numbered first texts).map (.later distance) = numbered (first + distance) texts := by
  induction texts generalizing first with
  | nil => rfl
  | cons text texts ih =>
      rw [numbered_cons, numbered_cons, List.map_cons, ih, Nat.add_right_comm]
      rfl

/-- Numbering adds no line and loses none. -/
theorem length_numbered (first : Nat) (texts : List (List Char))
    : (numbered first texts).length = texts.length := by
  simp [numbered]

/-- Empty lines at the top make no block; they only move the others down. By induction on their
number.
-/
theorem blocksFrom_replicate_append (first count : Nat) (texts : List (List Char))
    : blocksFrom first (List.replicate count [] ++ texts) = blocksFrom (first + count) texts := by
  induction count generalizing first with
  | zero => rfl
  | succ count ih =>
      have next : blocksFrom first ([] :: (List.replicate count [] ++ texts))
          = blocksFrom (first + 1) (List.replicate count [] ++ texts) :=
        runs_cons_of_separator rfl
      rw [List.replicate_succ, List.cons_append, next, ih, Nat.add_right_comm, Nat.add_assoc]

/-- Lines that are not empty make one block up to an empty line or the end, and the others come from
what is below.
-/
theorem blocksFrom_append (first : Nat) {block below : List (List Char)} (some : block ≠ [])
    (full : ∀ line ∈ block, line ≠ []) (stop : below.head?.all List.isEmpty = true)
    : blocksFrom first (block ++ below)
      = numbered first block :: blocksFrom (first + block.length) below := by
  rw [blocksFrom, numbered_append, runs_append]
  · rfl
  · rwa [← List.length_pos_iff, length_numbered, List.length_pos_iff]
  · intro line mem
    have there : line.text ∈ (numbered first block).map Line.text := List.mem_map_of_mem mem
    rw [map_text_numbered] at there
    exact List.isEmpty_eq_false_iff.mpr (full _ there)
  · cases below with
    | nil => rfl
    | cons line below => exact stop

-----------------------------------------------------------------------------------------
-- Texts of single listings with empty lines between them
-----------------------------------------------------------------------------------------

/-- The text has no empty line, and it ends in the middle of a line. -/
structure IsBlock (text : List Char) : Prop where
  some : text ≠ []
  full : ∀ line ∈ lines text, line ≠ []
  noFeed : text.getLast? ≠ .some '\n'
  noReturn : text.getLast? ≠ .some '\r'

/-- Texts, each behind the line ends that stand before it. -/
def stacked (entries : List (List Char × List Char)) : List Char :=
  entries.flatMap fun (gap, text) => gap ++ text

/-- Each text is a block, and the line ends before it make empty lines. The first line end behind a
text ends its last line; so between two texts there are at least two.
-/
structure StackedApart (entries : List (List Char × List Char)) (ends : List Char) : Prop where
  gaps : ∀ entry ∈ entries, LineEnds entry.1
  apart : ∀ entry ∈ entries.tail, 2 ≤ entry.1.count '\n'
  blocks : ∀ entry ∈ entries, IsBlock entry.2
  ends : LineEnds ends

/-- The texts, each with the number of line feeds before it. -/
def placed (above : Nat) : List (List Char × List Char) → List (Nat × List Char)
  | [] => []
  | (gap, text) :: entries =>
      (above + gap.count '\n', text) :: placed (above + (gap ++ text).count '\n') entries

/-- The first text stands behind its line ends and above the others. -/
theorem stacked_cons (gap text : List Char) (entries : List (List Char × List Char))
    : stacked ((gap, text) :: entries) = gap ++ text ++ stacked entries :=
  rfl

/-- A block has one line more than line feeds, as it ends in the middle of a line. -/
theorem IsBlock.length_lines {text : List Char} (h : IsBlock text)
    : (lines text).length = text.count '\n' + 1 := by
  obtain ⟨c, last⟩ := Option.ne_none_iff_exists'.mp (mt List.getLast?_eq_none_iff.mp h.some)
  have other : c ≠ '\n' := fun same => h.noFeed (same ▸ last)
  simp [Text.length_lines, last, other]

/-- Without the first text the others still stand apart. -/
theorem StackedApart.tail {entry : List Char × List Char} {entries : List (List Char × List Char)}
    {ends : List Char} (h : StackedApart (entry :: entries) ends)
    : StackedApart entries ends where
  gaps := fun other mem => h.gaps other (List.mem_cons_of_mem entry mem)
  apart := fun other mem => h.apart other (List.mem_of_mem_tail mem)
  blocks := fun other mem => h.blocks other (List.mem_cons_of_mem entry mem)
  ends := h.ends

/-- Behind a text there is nothing, or an empty line and no text directly below it. -/
theorem StackedApart.behind {entry : List Char × List Char}
    {entries : List (List Char × List Char)} {ends : List Char}
    (h : StackedApart (entry :: entries) ends)
    : stacked entries ++ ends = []
      ∨ ∃ more,
          lines (stacked entries ++ ends) = [] :: more
          ∧ more.head?.all List.isEmpty = true := by
  cases entries with
  | nil =>
      have whole := h.ends.lines_append []
      rw [List.append_nil] at whole
      rcases h.ends.eq_nil_or_exists_count with none | ⟨more, some⟩
      · exact Or.inl none
      · rw [some, List.replicate_succ] at whole
        refine Or.inr ⟨List.replicate more [], by simpa [lines, stacked] using whole, ?_⟩
        cases more <;> rfl
  | cons next entries =>
      obtain ⟨gap, text⟩ := next
      obtain ⟨more, atLeast⟩ : ∃ more, gap.count '\n' = 2 + more :=
        Nat.exists_eq_add_of_le (h.apart _ List.mem_cons_self)
      have whole := (h.gaps (gap, text) (by simp)).lines_append (text ++ (stacked entries ++ ends))
      rw [atLeast, Nat.add_comm, List.replicate_succ, List.replicate_succ] at whole
      rw [stacked_cons, List.append_assoc, List.append_assoc]
      exact Or.inr ⟨_, whole, rfl⟩

/-- The lines of the first text are a block, and below it are the others. -/
theorem StackedApart.blocksFrom_cons {gap text : List Char}
    {entries : List (List Char × List Char)} {ends : List Char}
    (h : StackedApart ((gap, text) :: entries) ends) (first : Nat)
    : blocksFrom first (lines (stacked ((gap, text) :: entries) ++ ends))
      = numbered (first + gap.count '\n') (lines text)
        :: blocksFrom (first + (gap ++ text).count '\n') (lines (stacked entries ++ ends)) := by
  have block : IsBlock text := h.blocks _ List.mem_cons_self
  have some : lines text ≠ [] := lines_ne_nil block.some
  have feeds : first + gap.count '\n' + (lines text).length
      = first + (gap ++ text).count '\n' + 1 := by
    rw [block.length_lines, List.count_append]
    omega
  have above : lines (stacked ((gap, text) :: entries) ++ ends)
      = List.replicate (gap.count '\n') [] ++ lines (text ++ (stacked entries ++ ends)) := by
    rw [stacked_cons, List.append_assoc, List.append_assoc]
    exact (h.gaps _ List.mem_cons_self).lines_append _
  rw [above, blocksFrom_replicate_append]
  rcases h.behind with none | ⟨more, feed, stop⟩
  · have alone : blocksFrom (first + gap.count '\n') (lines text ++ [])
        = numbered (first + gap.count '\n') (lines text) :: blocksFrom _ [] :=
      blocksFrom_append _ some block.full rfl
    rw [List.append_nil] at alone
    rw [none, List.append_nil, alone]
    rfl
  · rw [lines_append block.some block.noFeed block.noReturn feed,
      blocksFrom_append _ some block.full stop, feeds, feed]
    exact congrArg _ (blocksFrom_replicate_append _ 1 more).symm

/-- By induction on the texts. -/
theorem StackedApart.blocksFrom_eq {entries : List (List Char × List Char)} {ends : List Char}
    (h : StackedApart entries ends) (above : Nat)
    : blocksFrom (above + 1) (lines (stacked entries ++ ends))
      = (placed above entries).map fun place => numbered (place.1 + 1) (lines place.2) := by
  induction entries generalizing above with
  | nil =>
      have whole := h.ends.lines_append []
      rw [List.append_nil] at whole
      rw [stacked, List.flatMap_nil, List.nil_append, whole, blocksFrom_replicate_append]
      rfl
  | cons entry entries ih =>
      rw [h.blocksFrom_cons, Nat.add_right_comm above 1, Nat.add_right_comm above 1, ih h.tail]
      rfl

/-- Texts behind others have as many line feeds more before them as those have in all, by induction
on the texts in front.
-/
theorem placed_append (above : Nat) (front back : List (List Char × List Char))
    : placed above (front ++ back)
      = placed above front ++ placed (above + (stacked front).count '\n') back := by
  induction front generalizing above with
  | nil => rfl
  | cons entry front ih =>
      obtain ⟨gap, text⟩ := entry
      have feeds : (stacked ((gap, text) :: front)).count '\n'
          = (gap ++ text).count '\n' + (stacked front).count '\n' := by
        rw [stacked_cons, List.count_append]
      rw [List.cons_append, placed, ih, placed, feeds, Nat.add_assoc, List.cons_append]

/-- Placing leaves the texts as they are, by induction on the texts. -/
theorem map_snd_placed (above : Nat) (entries : List (List Char × List Char))
    : (placed above entries).map Prod.snd = entries.map Prod.snd := by
  induction entries generalizing above with
  | nil => rfl
  | cons entry entries ih => exact congrArg (entry.2 :: ·) (ih _)

/-- Every text with a place is one of the texts. -/
theorem exists_of_mem_placed {start above : Nat} {text : List Char}
    {entries : List (List Char × List Char)} (h : (above, text) ∈ placed start entries)
    : ∃ entry ∈ entries, entry.2 = text := by
  rw [← List.mem_map, ← map_snd_placed start]
  exact List.mem_map_of_mem h

/-- As many line feeds as lines stand above a text. -/
theorem StackedApart.length_lines {front back : List (List Char × List Char)}
    {entry : List Char × List Char} {ends : List Char}
    (h : StackedApart (front ++ entry :: back) ends)
    : (lines (stacked front ++ entry.1)).length = (stacked front ++ entry.1).count '\n' := by
  have gap : LineEnds entry.1 := h.gaps entry (by simp)
  have stop : (stacked front ++ entry.1).getLast?.all (· = '\n') = true := by
    rw [List.getLast?_append]
    cases last : entry.1.getLast? with
    | some c => simpa [last] using gap.all_getLast?
    | none =>
        -- only the first text has nothing before it
        cases front with
        | nil => rfl
        | cons first front =>
            have atLeast := h.apart entry (by simp)
            rw [List.getLast?_eq_none_iff.mp last] at atLeast
            exact absurd atLeast (by decide)
  rw [Text.length_lines, stop]
  rfl

/-- A block that stands alone is read as its lines are anywhere else; an error is found as many
lines further down as stand above.
-/
theorem IsBlock.readLines_eq {text : List Char} (h : IsBlock text) (above : Nat)
    : readLines (numbered (above + 1) (lines text))
      = (Dfa.ofListing (.ofList text)).mapError (.later above) := by
  have kept : dropEndWhile (· = '\n') text = text := by
    rw [dropEndWhile_eq_rdropWhile, List.rdropWhile_eq_self_iff]
    intro some lineFeed
    have last : text.getLast? = .some (text.getLast some) := List.getLast?_eq_some_getLast some
    exact h.noFeed (last.trans (congrArg _ (of_decide_eq_true lineFeed)))
  have some : numbered 1 (lines text) ≠ [] := by
    rw [← List.length_pos_iff, length_numbered, List.length_pos_iff]
    exact lines_ne_nil h.some
  rw [Dfa.ofListing, String.toList_ofList, kept, Nat.add_comm, ← map_later_numbered,
    readLines_later above some]
  rfl

/-- A text of listings that stand apart is read as each of them alone, with errors moved down by the
lines above.
-/
theorem StackedApart.ofListings_eq {entries : List (List Char × List Char)} {ends : List Char}
    (h : StackedApart entries ends)
    : Dfa.ofListings (.ofList (stacked entries ++ ends))
      = (placed 0 entries).mapM fun place =>
          (Dfa.ofListing (.ofList place.2)).mapError (.later place.1) := by
  have found : Listing.blocks (stacked entries ++ ends)
      = (placed 0 entries).map fun place => numbered (place.1 + 1) (lines place.2) :=
    h.blocksFrom_eq 0
  rw [Dfa.ofListings, String.toList_ofList, found, List.mapM_map]
  refine mapM_congr_left fun place mem => ?_
  obtain ⟨entry, there, same⟩ := exists_of_mem_placed mem
  have block : IsBlock place.2 := same ▸ h.blocks entry there
  exact block.readLines_eq place.1

end Listing

open Listing Text

/-- Texts of single listings with empty lines between them, before them and behind them are read as
each of them alone. If all are accepted, their automata are the outcome, in order. Otherwise it is
the error of the first one that is not, with the number of its line increased by the number of lines
above the text.
-/
theorem Dfa.ofListings_stacked {entries : List (List Char × List Char)} {ends : List Char}
    (apart : StackedApart entries ends)
    : (∀ automata,
        Dfa.ofListings (.ofList (stacked entries ++ ends)) = .ok automata
        ↔ List.Forall₂ (fun entry dfa => Dfa.ofListing (.ofList entry.2) = .ok dfa) entries
            automata)
      ∧ ∀ front entry back error,
          entries = front ++ entry :: back
          → (∀ earlier ∈ front, ∃ dfa, Dfa.ofListing (.ofList earlier.2) = .ok dfa)
          → Dfa.ofListing (.ofList entry.2) = .error error
          → Dfa.ofListings (.ofList (stacked entries ++ ends))
            = .error (error.later (lines (stacked front ++ entry.1)).length) := by
  rw [apart.ofListings_eq]
  constructor
  · intro automata
    rw [mapM_eq_ok_iff, ← List.forall₂_map_left_iff (f := Prod.snd)
      (R := fun text dfa => Dfa.ofListing (.ofList text) = .ok dfa), ← map_snd_placed 0,
      List.forall₂_map_left_iff]
    simp only [mapError_eq_ok_iff]
  · rintro front entry back error rfl earlier failed
    rw [apart.length_lines, placed_append, mapM_eq_error_iff]
    refine ⟨placed 0 front, _, _, rfl, ?_, ?_⟩
    · intro (above, text) mem
      obtain ⟨other, there, rfl⟩ := exists_of_mem_placed mem
      obtain ⟨dfa, read⟩ := earlier other there
      exact ⟨dfa, mapError_eq_ok_iff.mpr read⟩
    · have position : 0 + (stacked front).count '\n' + entry.1.count '\n'
          = (stacked front ++ entry.1).count '\n' := by
        rw [List.count_append, Nat.zero_add]
      exact mapError_eq_error_iff.mpr ⟨error, failed, congrArg (error.later ·) position⟩

/-- The third line of the second text, below an empty line at the top, the first text and two empty
lines that end in different ways.
-/
theorem Dfa.ofListings_secondText
    : Dfa.ofListing "ab\nA\nx\n0" = .error (.invalidState 3 "x")
      ∧ Dfa.ofListings "\r\nb\nB\n0\n0\n\n\r\nab\nA\nx\n0\n" = .error (.invalidState 10 "x") := by
  have first : IsBlock "b\nB\n0\n0".toList := ⟨by decide, by decide, by decide, by decide⟩
  have second : IsBlock "ab\nA\nx\n0".toList := ⟨by decide, by decide, by decide, by decide⟩
  have above : LineEnds "\r\n".toList := .returnAndFeed .none
  have between : LineEnds "\n\n\r\n".toList := .lineFeed (.lineFeed (.returnAndFeed .none))
  have apart : StackedApart
      [("\r\n".toList, "b\nB\n0\n0".toList), ("\n\n\r\n".toList, "ab\nA\nx\n0".toList)] ['\n'] := {
    gaps := List.forall_mem_cons.mpr ⟨above, List.forall_mem_singleton.mpr between⟩
    apart := by decide
    blocks := List.forall_mem_cons.mpr ⟨first, List.forall_mem_singleton.mpr second⟩
    ends := .lineFeed .none
  }
  have failed : Dfa.ofListing "ab\nA\nx\n0" = .error (.invalidState 3 "x") := by
    have outcome : (Dfa.ofListing "ab\nA\nx\n0").map Dfa.label = .error (.invalidState 3 "x") := by
      decide +kernel
    exact map_eq_error_iff.mp outcome
  have accepted : ∃ dfa, Dfa.ofListing "b\nB\n0\n0" = .ok dfa := by
    have label : (Dfa.ofListing "b\nB\n0\n0").map Dfa.label = .ok "B" := by decide +kernel
    obtain ⟨dfa, read, -⟩ := map_eq_ok_iff.mp label
    exact ⟨dfa, read⟩
  exact ⟨failed, (Dfa.ofListings_stacked apart).2 [_] _ [] _ rfl
    (List.forall_mem_singleton.mpr accepted) failed⟩

end Munch
