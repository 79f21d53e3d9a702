import Mathlib.Data.List.DropRight
import Mathlib.Tactic.Common
import Munch.Listing.Read

/-! Texts that were put together are taken apart again: lines with a line feed behind each of them,
runs with separators between them, words with spaces between them, and the two sides of a mark.
-/

namespace Munch.Text

variable {α β : Type}

-----------------------------------------------------------------------------------------
-- Lines
-----------------------------------------------------------------------------------------

/-- A line as it is read when a line feed follows: without a carriage return at its end. -/
def chomp (line : List Char) : List Char :=
  if line.getLast? = some '\r' then line.dropLast else line

/-- A line without a carriage return at its end is left as it is. -/
theorem chomp_of_getLast?_ne {line : List Char} (h : line.getLast? ≠ some '\r')
    : chomp line = line :=
  if_neg h

/-- A character in front of a line with characters changes nothing about its end. -/
theorem chomp_cons (c : Char) {line : List Char} (some : line ≠ [])
    : chomp (c :: line) = c :: chomp line := by
  obtain ⟨d, more, rfl⟩ := List.exists_cons_of_ne_nil some
  simp only [chomp, List.getLast?_cons_cons, List.dropLast_cons_cons]
  split <;> rfl

/-- A line that ends with a carriage return is not read as it is. -/
theorem chomp_eq_self_iff {line : List Char} : chomp line = line ↔ line.getLast? ≠ some '\r' := by
  constructor
  · intro same last
    have shorter := congrArg List.length same
    rw [chomp, if_pos last, List.length_dropLast] at shorter
    obtain rfl : line = [] := List.length_eq_zero_iff.mp (by omega)
    cases last
  · exact chomp_of_getLast?_ne

/-- A character that ends no line belongs to the first line of what follows. -/
theorem lines_cons {c : Char} {rest : List Char} (lineFeed : c ≠ '\n')
    (pair : c = '\r' → rest.head? ≠ some '\n')
    : lines (c :: rest) = consFirst c (lines rest) := by
  apply lines.eq_4
  · exact lineFeed
  · intro more same begins
    exact pair same (by rw [begins, List.head?_cons])

/-- A line feed ends a line, by induction on the line. -/
theorem lines_append_lineFeed {line : List Char} (whole : '\n' ∉ line) (rest : List Char)
    : lines (line ++ '\n' :: rest) = chomp line :: lines rest := by
  induction line with
  | nil => rfl
  | cons c line ih =>
      obtain ⟨here, there⟩ := not_or.mp (mt List.mem_cons.mpr whole)
      cases line with
      | nil =>
          by_cases pair : c = '\r'
          · rw [pair]
            rfl
          · have alone : chomp [c] = [c] := chomp_of_getLast?_ne (by simpa using pair)
            rw [List.cons_append, lines_cons (Ne.symm here) fun same => absurd same pair, ih there,
              alone]
            rfl
      | cons d line =>
          have next : d ≠ '\n' := fun same => there (same ▸ List.mem_cons_self)
          rw [List.cons_append, lines_cons (Ne.symm here) fun _ => by simpa using next, ih there,
            chomp_cons c (List.cons_ne_nil d line)]
          rfl

/-- What no line feed follows is a line as it is, unless nothing is left. -/
theorem lines_of_not_mem {line : List Char} (whole : '\n' ∉ line)
    : lines line = if line = [] then [] else [line] := by
  induction line with
  | nil => rfl
  | cons c line ih =>
      obtain ⟨here, there⟩ := not_or.mp (mt List.mem_cons.mpr whole)
      have notNext : line.head? ≠ some '\n' := fun next => there (List.mem_of_mem_head? next)
      rw [lines_cons (Ne.symm here) fun _ => notNext, ih there, if_neg (List.cons_ne_nil c line)]
      split
      · rename_i none
        rw [none]
        rfl
      · rfl

/-- Lines with a line feed behind each of them, and more text behind these. -/
theorem lines_flatMap {items : List (List Char)} (whole : ∀ line ∈ items, '\n' ∉ line)
    (rest : List Char)
    : lines (items.flatMap (· ++ ['\n']) ++ rest) = items.map chomp ++ lines rest := by
  induction items with
  | nil => rfl
  | cons line items ih =>
      obtain ⟨first, others⟩ := List.forall_mem_cons.mp whole
      rw [List.flatMap_cons, List.append_assoc, List.append_assoc, List.singleton_append,
        lines_append_lineFeed first, ih others]
      rfl

/-- A line is the new character alone, an old line with that in front, or an old line. -/
theorem mem_consFirst {a : α} {items : List (List α)} {item : List α}
    (h : item ∈ consFirst a items)
    : item = [a] ∨ (∃ first ∈ items, item = a :: first) ∨ item ∈ items := by
  cases items with
  | nil => exact Or.inl (List.mem_singleton.mp h)
  | cons first more =>
      rcases List.mem_cons.mp h with same | later
      · exact Or.inr (Or.inl ⟨first, List.mem_cons_self, same⟩)
      · exact Or.inr (Or.inr (List.mem_cons_of_mem first later))

/-- No line of a text has a line feed in it. -/
theorem not_mem_of_mem_lines {text line : List Char} (h : line ∈ lines text) : '\n' ∉ line := by
  fun_induction lines text generalizing line with
  | case1 => cases h
  | case2 rest ih | case3 rest ih =>
      rcases List.mem_cons.mp h with rfl | later
      · exact List.not_mem_nil
      · exact ih later
  | case4 c rest other _ ih =>
      have alone : '\n' ≠ c := fun same => other same.symm
      rcases mem_consFirst h with rfl | ⟨first, mem, rfl⟩ | later
      · exact mt List.mem_singleton.mp alone
      · exact List.not_mem_cons_of_ne_of_not_mem alone (ih mem)
      · exact ih later

-----------------------------------------------------------------------------------------
-- Runs and words
-----------------------------------------------------------------------------------------

variable {isSeparator : α → Bool}

/-- A separator at the front belongs to no run. -/
theorem runs_cons_of_separator {a : α} {rest : List α} (h : isSeparator a = true)
    : runs isSeparator (a :: rest) = runs isSeparator rest := by
  rw [runs, if_pos h]

/-- Elements that are no separators make a run, if a separator or nothing follows, by induction on
the elements.
-/
theorem runs_append {run rest : List α} (some : run ≠ [])
    (kept : ∀ a ∈ run, isSeparator a = false) (stop : rest.head?.all isSeparator = true)
    : runs isSeparator (run ++ rest) = run :: runs isSeparator rest := by
  induction run with
  | nil => exact absurd rfl some
  | cons a run ih =>
      obtain ⟨first, others⟩ := List.forall_mem_cons.mp kept
      rw [List.cons_append, runs, first, if_neg Bool.false_ne_true]
      cases run with
      | nil => rw [List.nil_append, if_pos stop]
      | cons b run =>
          have next : isSeparator b = false := others b List.mem_cons_self
          rw [ih (List.cons_ne_nil b run) others, List.cons_append, List.head?_cons,
            Option.all_some, next, if_neg Bool.false_ne_true]
          rfl

/-- A stretch without separators is one run. -/
theorem runs_of_forall_not {run : List α} (some : run ≠ [])
    (kept : ∀ a ∈ run, isSeparator a = false)
    : runs isSeparator run = [run] := by
  have alone : runs isSeparator (run ++ []) = run :: runs isSeparator [] :=
    runs_append some kept rfl
  rwa [List.append_nil] at alone

/-- A list is empty, or it begins with a separator or with a run. By induction on its length. -/
theorem runs_induction (isSeparator : α → Bool) {motive : List α → Prop} (nil : motive [])
    (separator : ∀ a rest, isSeparator a = true → motive rest → motive (a :: rest))
    (run
      : ∀ run rest, run ≠ []
        → (∀ a ∈ run, isSeparator a = false)
        → rest.head?.all isSeparator = true
        → motive rest
        → motive (run ++ rest))
    (items : List α)
    : motive items := by
  induction size : items.length using Nat.strong_induction_on generalizing items with
  | _ size ih =>
      subst size
      cases items with
      | nil => exact nil
      | cons a rest =>
          by_cases here : isSeparator a = true
          · exact separator a rest here (ih _ (Nat.lt_succ_self _) rest rfl)
          · have split := List.takeWhile_append_dropWhile (p := (!isSeparator ·)) (l := rest)
            have shorter : (rest.dropWhile (!isSeparator ·)).length < (a :: rest).length :=
              Nat.lt_succ_of_le (List.length_dropWhile_le _ _)
            rw [← split, ← List.cons_append]
            refine run _ _ (List.cons_ne_nil _ _) ?_ ?_ (ih _ shorter _ rfl)
            · refine List.forall_mem_cons.mpr ⟨Bool.eq_false_iff.mpr here, fun b mem => ?_⟩
              simpa using List.mem_takeWhile_imp mem
            · have stops := List.head?_dropWhile_not (!isSeparator ·) rest
              cases next : (rest.dropWhile (!isSeparator ·)).head? with
              | none => rfl
              | some b => simpa [next] using stops

/-- Runs do not go on behind a separator, by induction along the runs before it. -/
theorem runs_append_of_top {front : List α} (top : front.getLast?.all isSeparator = true)
    (back : List α)
    : runs isSeparator (front ++ back) = runs isSeparator front ++ runs isSeparator back := by
  induction front using runs_induction isSeparator with
  | nil => rfl
  | separator a rest here ih =>
      have top' : rest.getLast?.all isSeparator = true := by
        cases rest with
        | nil => rfl
        | cons b rest => exact top
      rw [List.cons_append, runs_cons_of_separator here, runs_cons_of_separator here, ih top']
  | run run rest some kept stop ih =>
      cases rest with
      | nil =>
          rw [List.append_nil, List.getLast?_eq_some_getLast some, Option.all_some,
            kept _ (List.getLast_mem some)] at top
          cases top
      | cons b rest =>
          rw [List.getLast?_append_cons] at top
          have stop' : (b :: rest ++ back).head?.all isSeparator = true := stop
          rw [List.append_assoc, runs_append some kept stop', ih top, runs_append some kept stop,
            List.cons_append]

/-- A list behind which a separator or nothing comes has its own runs, by induction along them. -/
theorem runs_append_of_bottom {back : List α} (bottom : back.head?.all isSeparator = true)
    (front : List α)
    : runs isSeparator (front ++ back) = runs isSeparator front ++ runs isSeparator back := by
  induction front using runs_induction isSeparator with
  | nil => rfl
  | separator a rest here ih =>
      rw [List.cons_append, runs_cons_of_separator here, runs_cons_of_separator here, ih]
  | run run rest some kept stop ih =>
      have stop' : (rest ++ back).head?.all isSeparator = true := by
        cases rest with
        | nil => exact bottom
        | cons b rest => exact stop
      rw [List.append_assoc, runs_append some kept stop', ih, runs_append some kept stop,
        List.cons_append]

/-- Separators at the front make no run, by induction on them. -/
theorem runs_separators_append {gap : List α} (separators : ∀ a ∈ gap, isSeparator a = true)
    (back : List α)
    : runs isSeparator (gap ++ back) = runs isSeparator back := by
  induction gap with
  | nil => rfl
  | cons a gap ih =>
      obtain ⟨first, others⟩ := List.forall_mem_cons.mp separators
      rw [List.cons_append, runs_cons_of_separator first, ih others]

/-- The elements of a run are elements of the whole, and no separators. -/
theorem of_mem_runs {items run : List α} {a : α} (h : run ∈ runs isSeparator items)
    (mem : a ∈ run)
    : a ∈ items ∧ isSeparator a = false := by
  fun_induction runs isSeparator items generalizing run with
  | case1 => cases h
  | case2 b rest _ ih =>
      obtain ⟨inRest, kept⟩ := ih h mem
      exact ⟨List.mem_cons_of_mem b inRest, kept⟩
  | case3 b rest kept _ ih =>
      rcases List.mem_cons.mp h with rfl | later
      · obtain rfl := List.mem_singleton.mp mem
        exact ⟨List.mem_cons_self, Bool.eq_false_iff.mpr kept⟩
      · obtain ⟨inRest, kept⟩ := ih later mem
        exact ⟨List.mem_cons_of_mem b inRest, kept⟩
  | case4 b rest kept _ ih =>
      have here : b ∈ b :: rest ∧ isSeparator b = false :=
        ⟨List.mem_cons_self, Bool.eq_false_iff.mpr kept⟩
      rcases mem_consFirst h with rfl | ⟨first, there, rfl⟩ | later
      · exact List.mem_singleton.mp mem ▸ here
      · rcases List.mem_cons.mp mem with rfl | mem
        · exact here
        · obtain ⟨inRest, kept⟩ := ih there mem
          exact ⟨List.mem_cons_of_mem b inRest, kept⟩
      · obtain ⟨inRest, kept⟩ := ih later mem
        exact ⟨List.mem_cons_of_mem b inRest, kept⟩

/-- Whatever is no separator belongs to some run. -/
theorem exists_mem_runs {items : List α} {a : α} (mem : a ∈ items) (kept : isSeparator a = false)
    : ∃ run ∈ runs isSeparator items, a ∈ run := by
  have put {b : α} {groups : List (List α)} (h : a = b ∨ ∃ run ∈ groups, a ∈ run)
      : ∃ run ∈ consFirst b groups, a ∈ run := by
    cases groups with
    | nil => exact ⟨[b], List.mem_cons_self, by simpa using h⟩
    | cons first more =>
        rcases h with rfl | ⟨run, there, mem⟩
        · exact ⟨a :: first, List.mem_cons_self, List.mem_cons_self⟩
        rcases List.mem_cons.mp there with rfl | later
        · exact ⟨b :: run, List.mem_cons_self, List.mem_cons_of_mem b mem⟩
        · exact ⟨run, List.mem_cons_of_mem _ later, mem⟩
  fun_induction runs isSeparator items with
  | case1 => cases mem
  | case2 b rest separator ih =>
      rcases List.mem_cons.mp mem with rfl | later
      · rw [kept] at separator
        cases separator
      · exact ih later
  | case3 b rest _ _ ih =>
      rcases List.mem_cons.mp mem with rfl | later
      · exact ⟨[a], List.mem_cons_self, List.mem_cons_self⟩
      · obtain ⟨run, there, mem⟩ := ih later
        exact ⟨run, List.mem_cons_of_mem _ there, mem⟩
  | case4 b rest _ _ ih => exact put ((List.mem_cons.mp mem).imp_right ih)

/-- Mapping every element maps the one at the front as well. -/
theorem map_consFirst {f : β → α} {b : β} {items : List (List β)}
    : (consFirst b items).map (List.map f) = consFirst (f b) (items.map (List.map f)) := by
  cases items <;> rfl

/-- Runs are found by what the separators look like, by recursion on the elements. -/
theorem runs_map {f : β → α} {items : List β}
    : runs isSeparator (items.map f)
      = (runs (fun item => isSeparator (f item)) items).map (List.map f) := by
  induction items with
  | nil => rfl
  | cons b rest ih =>
      have next : (rest.map f).head?.all isSeparator
          = rest.head?.all fun item => isSeparator (f item) := by
        cases rest <;> rfl
      rw [List.map_cons, runs, runs, next, ih]
      split
      · rfl
      · split
        · rfl
        · exact map_consFirst.symm

/-- Pieces without white space are the words of a text in which spaces stand between them, by
induction on the pieces.
-/
theorem words_intercalate {pieces : List (List Char)}
    (dark : ∀ piece ∈ pieces, piece ≠ [] ∧ ∀ c ∈ piece, isWhite c = false)
    : words (List.intercalate [' '] pieces) = pieces := by
  induction pieces with
  | nil => rfl
  | cons piece pieces ih =>
      obtain ⟨⟨some, kept⟩, others⟩ := List.forall_mem_cons.mp dark
      cases pieces with
      | nil => rw [List.intercalate_singleton, words, runs_of_forall_not some kept]
      | cons next pieces =>
          have space : isWhite ' ' = true := by decide
          rw [List.intercalate_cons_cons, List.append_assoc, List.singleton_append, words,
            runs_append some kept (by rwa [List.head?_cons]), runs_cons_of_separator space]
          exact congrArg (piece :: ·) (ih others)

/-- Dropping from the end is what the library calls so. -/
theorem dropEndWhile_eq_rdropWhile {test : α → Bool} {items : List α}
    : dropEndWhile test items = items.rdropWhile test :=
  rfl

/-- A stretch at the end of which every element passes the test is dropped whole. -/
theorem dropEndWhile_append {test : α → Bool} {back : List α} (all : ∀ a ∈ back, test a = true)
    (front : List α)
    : dropEndWhile test (front ++ back) = dropEndWhile test front := by
  have turned : ∀ a ∈ back.reverse, test a = true := fun a mem => all a (List.mem_reverse.mp mem)
  rw [dropEndWhile, List.reverse_append, List.dropWhile_append_of_pos turned, dropEndWhile]

/-- Line feeds behind the last line are dropped, and the lines are found, if the last is not empty.
-/
theorem lines_dropEndWhile {items : List (List Char)} {last feeds : List Char}
    (whole : ∀ line ∈ items, '\n' ∉ line) (wholeLast : '\n' ∉ last) (some : last ≠ [])
    (ends : ∀ c ∈ feeds, c = '\n')
    : lines (dropEndWhile (· = '\n') (items.flatMap (· ++ ['\n']) ++ last ++ feeds))
      = items.map chomp ++ [last] := by
  have kept : dropEndWhile (· = '\n') (items.flatMap (· ++ ['\n']) ++ last)
      = items.flatMap (· ++ ['\n']) ++ last := by
    rw [dropEndWhile_eq_rdropWhile, List.rdropWhile_eq_self_iff]
    intro _ lineFeed
    rw [List.getLast_append_of_ne_nil _ some] at lineFeed
    exact wholeLast (of_decide_eq_true lineFeed ▸ List.getLast_mem some)
  have dropped : ∀ c ∈ feeds, decide (c = '\n') = true := fun c mem => decide_eq_true (ends c mem)
  rw [dropEndWhile_append dropped, kept, lines_flatMap whole, lines_of_not_mem wholeLast,
    if_neg some]

/-- A text without white space is left as it is. -/
theorem trim_of_forall_not {text : List Char} (dark : ∀ c ∈ text, isWhite c = false)
    : trim text = text := by
  have front : trimStart text = text := by
    rw [trimStart, List.dropWhile_eq_self_iff]
    intro some
    exact Bool.eq_false_iff.mp (dark _ (List.getElem_mem some))
  rw [trim, front, dropEndWhile_eq_rdropWhile, List.rdropWhile_eq_self_iff]
  intro some
  exact Bool.eq_false_iff.mp (dark _ (List.getLast_mem some))

/-- What stands between separators is part of a separator or of a piece. -/
theorem mem_intercalate {separator : List α} {pieces : List (List α)} {a : α}
    (h : a ∈ List.intercalate separator pieces)
    : a ∈ separator ∨ ∃ piece ∈ pieces, a ∈ piece := by
  induction pieces with
  | nil => cases h
  | cons piece pieces ih =>
      cases pieces with
      | nil =>
          rw [List.intercalate_singleton] at h
          exact Or.inr ⟨piece, List.mem_cons_self, h⟩
      | cons next pieces =>
          rw [List.intercalate_cons_cons, List.mem_append, List.mem_append] at h
          rcases h with (first | between) | later
          · exact Or.inr ⟨piece, List.mem_cons_self, first⟩
          · exact Or.inl between
          · refine (ih later).imp_right fun found => ?_
            obtain ⟨other, there, mem⟩ := found
            exact ⟨other, List.mem_cons_of_mem piece there, mem⟩

-----------------------------------------------------------------------------------------
-- The sides of a mark
-----------------------------------------------------------------------------------------

/-- A mark whose first character does not stand before it is found at once. -/
theorem cutAtFirst?_append {c : Char} {mark before : List Char} (first : c ∉ before)
    (after : List Char)
    : cutAtFirst? (c :: mark) (before ++ (c :: mark) ++ after) = some (before, after) := by
  induction before with
  | nil => simp [cutAtFirst?]
  | cons d before ih =>
      obtain ⟨here, there⟩ := not_or.mp (mt List.mem_cons.mpr first)
      rw [List.cons_append, List.cons_append, cutAtFirst?, ih there]
      simp [here]

/-- A text is not cut at a mark whose first character is absent from it, by induction on the text.
-/
theorem cutAtLast?_eq_none {c : Char} {mark text : List Char} (absent : c ∉ text)
    : cutAtLast? (c :: mark) text = none := by
  induction text with
  | nil => rfl
  | cons d text ih =>
      obtain ⟨here, there⟩ := not_or.mp (mt List.mem_cons.mpr absent)
      simp [cutAtLast?, ih there, here]

/-- A mark whose first character does not stand behind its beginning is found last. -/
theorem cutAtLast?_append {c : Char} {mark after : List Char} (last : c ∉ mark ++ after)
    (before : List Char)
    : cutAtLast? (c :: mark) (before ++ (c :: mark) ++ after) = some (before, after) := by
  induction before with
  | nil => simp [cutAtLast?, cutAtLast?_eq_none last]
  | cons d before ih => rw [List.cons_append, List.cons_append, cutAtLast?, ih]

end Munch.Text
