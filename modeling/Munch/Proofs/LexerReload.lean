import Mathlib.Data.List.TakeDrop
import Munch.Proofs.ListingRoundTrip
import Munch.Proofs.RuleLexers

/-! Lexers that are read back from their listing. The listings of the automata come apart at the
empty lines between them, unless a line of their own is empty; so what comes back is told automaton
by automaton. A loaded lexer comes back with the same labels exactly if every label fits on a line
and every automaton has a final state, and then it is the same lexer.
-/

namespace Munch

open Text Listing

namespace Dfa

-----------------------------------------------------------------------------------------
-- Several listings
-----------------------------------------------------------------------------------------

/-- The listings of some automata, with an empty line between each two of them. -/
def listingsText (automata : List Dfa) : List Char :=
  List.intercalate ['\n', '\n'] (automata.map fun dfa => dfa.listing.toList)

/-- The lines of the first listing are found, and no line that follows is joined with them. -/
theorem exists_lines_listingsText {dfa : Dfa} (whole : '\n' ∉ dfa.label.toList) (rest : List Dfa)
    : ∃ tail,
        lines (listingsText (dfa :: rest)) = dfa.linesRead ++ tail
        ∧ tail.head?.all List.isEmpty = true
        ∧ runs List.isEmpty tail = runs List.isEmpty (lines (listingsText rest)) := by
  have body := not_mem_of_mem_bodyLines whole
  have last := unbroken_statesLine dfa.finals.toList
  cases rest with
  | nil =>
      refine ⟨[], ?_, rfl, rfl⟩
      rw [listingsText, List.map_singleton, List.intercalate_singleton, toList_listing,
        lines_flatMap body, lines_of_not_mem last.not_mem, linesRead, List.append_nil]
      simp only [finalsLine_eq_nil_iff]
  | cons next rest =>
      have found : lines (listingsText (dfa :: next :: rest))
          = dfa.bodyLines.map chomp ++ statesLine dfa.finals.toList :: []
            :: lines (listingsText (next :: rest)) := by
        rw [listingsText, List.map_cons, List.map_cons, List.intercalate_cons_cons, toList_listing,
          List.append_assoc, List.append_assoc, lines_flatMap body, List.cons_append,
          lines_append_lineFeed last.not_mem, last.chomp_eq]
        rfl
      rw [found, linesRead]
      split
      · rename_i none
        -- the line of the final states is one more empty line between the listings
        refine ⟨[] :: [] :: lines (listingsText (next :: rest)), ?_, rfl, rfl⟩
        rw [finalsLine_eq_nil_iff.mpr none, List.append_nil]
      · exact ⟨[] :: lines (listingsText (next :: rest)), by simp, rfl, rfl⟩

/-- In a text of several listings the listing of the one automaton is read as the other. -/
def ReadAs (dfa other : Dfa) : Prop :=
  chomp dfa.label.toList ≠ [] ∧ Spells dfa.linesRead other

/-- With an alphabet and a label, no line of a listing is empty as it is read. -/
theorem isEmpty_of_mem_linesRead {dfa : Dfa} (letters : alphabetLine dfa.alphabet ≠ [])
    (label : chomp dfa.label.toList ≠ [])
    : ∀ line ∈ dfa.linesRead, line.isEmpty = false := by
  rw [linesRead, map_chomp_bodyLines]
  simp only [List.cons_append, List.forall_mem_cons, List.forall_mem_append, List.forall_mem_map,
    List.isEmpty_eq_false_iff]
  refine ⟨letters, label, decimal_ne_nil _, fun t _ => lineOf_ne_nil t, ?_⟩
  split
  · simp
  · rename_i final
    rw [List.forall_mem_singleton]
    exact mt finalsLine_eq_nil_iff.mp final

/-- The lines of a listing are one run, unless the label is read as an empty line; then the alphabet
stands alone.
-/
theorem spells_runs_iff {dfa : Dfa} {tail : List (List Char)} {automata : List Dfa}
    (letters : alphabetLine dfa.alphabet ≠ []) (apart : tail.head?.all List.isEmpty = true)
    : List.Forall₂ Spells (runs List.isEmpty (dfa.linesRead ++ tail)) automata
      ↔ ∃ first others,
          dfa.ReadAs first ∧ List.Forall₂ Spells (runs List.isEmpty tail) others
          ∧ automata = first :: others := by
  by_cases label : chomp dfa.label.toList = []
  · obtain ⟨more, alone⟩ : ∃ more,
        runs List.isEmpty (dfa.linesRead ++ tail) = [alphabetLine dfa.alphabet] :: more := by
      rw [linesRead, map_chomp_bodyLines, label]
      exact ⟨_, runs_append (List.cons_ne_nil _ []) (by simpa using letters) rfl⟩
    rw [alone, List.forall₂_cons_left_iff]
    constructor
    · rintro ⟨_, _, spelled, _⟩
      cases spelled
    · rintro ⟨_, _, ⟨named, _⟩, _⟩
      exact absurd label named
  · have some : dfa.linesRead ≠ [] := by simp [linesRead, bodyLines]
    rw [runs_append some (isEmpty_of_mem_linesRead letters label) apart, List.forall₂_cons_left_iff]
    simp only [ReadAs, label, ne_eq, not_false_eq_true, true_and]

/-- The listings of automata are read back one by one, by induction on the automata. -/
theorem spells_listingsText_iff {automata again : List Dfa}
    (letters : ∀ dfa ∈ automata, alphabetLine dfa.alphabet ≠ [])
    (whole : ∀ dfa ∈ automata, '\n' ∉ dfa.label.toList)
    : List.Forall₂ Spells (runs List.isEmpty (lines (listingsText automata))) again
      ↔ List.Forall₂ ReadAs automata again := by
  induction automata generalizing again with
  | nil =>
      rw [listingsText]
      simp [lines, runs]
  | cons dfa rest ih =>
      obtain ⟨firstLetters, otherLetters⟩ := List.forall_mem_cons.mp letters
      obtain ⟨firstWhole, otherWhole⟩ := List.forall_mem_cons.mp whole
      obtain ⟨tail, found, apart, others⟩ := exists_lines_listingsText firstWhole rest
      rw [found, spells_runs_iff firstLetters apart, others, List.forall₂_cons_left_iff]
      simp only [ih otherLetters otherWhole]

-----------------------------------------------------------------------------------------
-- Automata of loaded lexers
-----------------------------------------------------------------------------------------

/-- The automaton is the one that its parts describe, its states have numbers of one word, and it
has an alphabet and a label.
-/
structure Storable (dfa : Dfa) : Prop where
  rebuilt : dfa.rebuilt = dfa
  sized : dfa.WordSized
  letters : dfa.alphabet ≠ []
  named : dfa.label ≠ ""

/-- A compiled automaton whose numbers are words can be stored under any label. Its alphabet has a
letter, because every expression has a literal.
-/
theorem storable_ofTree {tree : Regex} {label : String} (sized : (ofTree tree label).WordSized)
    (named : label ≠ "")
    : (ofTree tree label).Storable := by
  refine ⟨rebuilt_ofTree tree label, sized, ?_, named⟩
  obtain ⟨c, letter⟩ := Fragment.exists_mem_alphabet 0 tree
  exact List.ne_nil_of_mem (SortedSet.mem_toList.mpr letter)

/-- Every number that was read is one of a word. -/
theorem wordSized_of_spells {texts : List (List Char)} {dfa : Dfa} (h : Spells texts dfa)
    : dfa.WordSized := by
  have small {text : List Char} {q : State} (spelled : SpellsState text q) : q < wordLimit :=
    lt_wordLimit_of_readDecimal? spelled
  cases h with
  | @intro _ _ _ last body _ _ transitions finals letters starts steps ends =>
      refine ⟨small starts, fun q mem => ?_, fun t mem => ?_⟩
      · obtain ⟨_, _, spelled⟩ := exists_mem_of_forall₂ ends.flip (SortedSet.mem_ofList.mp mem)
        exact small spelled
      · obtain ⟨_, _, spelled⟩ := exists_mem_of_forall₂ steps.flip mem
        cases spelled with
        | intro _ _ _ source target => exact ⟨small source, small target⟩

/-- What a listing without empty lines spells can be stored. -/
theorem storable_of_spells {texts : List (List Char)} {dfa : Dfa} (h : Spells texts dfa)
    (full : ∀ line ∈ texts, line ≠ [])
    : dfa.Storable := by
  refine ⟨rebuilt_of_spells h, wordSized_of_spells h, ?_, ?_⟩
  · cases h with
    | intro letters _ _ _ =>
        rintro rfl
        exact full _ List.mem_cons_self (eq_nil_of_unescapeAll? letters)
  · cases h with
    | intro _ _ _ _ =>
        intro empty
        have cut := String.ofList_eq_empty_iff.mp empty
        exact full _ (List.mem_cons_of_mem _ List.mem_cons_self) cut

end Dfa

/-- The label goes up to the first space behind white space, so it is not empty. -/
theorem Rule.label_ne_empty {statement : List Char} {rule : Rule}
    (h : ofStatement statement = .ok rule)
    : rule.label ≠ "" := by
  simp only [ofStatement, List.span_eq_takeWhile_dropWhile] at h
  split at h
  · rename_i label space pattern cut
    obtain rfl := Except.ok.inj h
    obtain ⟨front, back⟩ := Prod.mk.inj cut
    intro empty
    obtain rfl : label = [] := String.ofList_eq_empty_iff.mp empty
    have whole : trimStart statement = space :: pattern := by
      rw [← List.takeWhile_append_dropWhile (l := trimStart statement), front, back]
      rfl
    have dark : isWhite space = false := by
      have kept := List.head?_dropWhile_not isWhite statement
      rw [← trimStart, whole] at kept
      exact kept
    have blank : space = ' ' := by
      have kept := List.head?_dropWhile_not (· ≠ ' ') (trimStart statement)
      rw [back] at kept
      simpa using kept
    rw [blank] at dark
    exact absurd dark (by decide)
  · cases h

namespace Dfa

/-- The label fits on a line, and the line of the final states is not empty. -/
def Legible (dfa : Dfa) : Prop :=
  '\n' ∉ dfa.label.toList ∧ dfa.label.toList.getLast? ≠ some '\r' ∧ dfa.finals ≠ ∅

/-- A legible automaton is read as itself. -/
theorem Legible.readAs {dfa : Dfa} (h : dfa.Legible) (storable : dfa.Storable)
    : dfa.ReadAs dfa := by
  obtain ⟨_, stop, final⟩ := h
  constructor
  · rw [chomp_of_getLast?_ne stop, ne_eq, String.toList_eq_nil_iff]
    exact storable.named
  · have spelled := spells_linesRead storable.sized stop final
    rwa [storable.rebuilt] at spelled

/-- The label of an automaton is one of the lines that spell it. -/
theorem label_mem_of_spells {texts : List (List Char)} {dfa : Dfa} (h : Spells texts dfa)
    : dfa.label.toList ∈ texts := by
  cases h with
  | @intro alphabet label _ _ _ _ _ _ _ _ _ _ _ =>
      change (String.ofList label).toList ∈ _
      rw [String.toList_ofList]
      exact List.mem_cons_of_mem alphabet List.mem_cons_self

end Dfa

namespace Lexer

/-- A lexer is read from listings exactly if its automata are spelled by the stretches of lines that
empty lines divide.
-/
theorem ofListings_eq_ok_iff {text : String} {lexer : Lexer}
    : ofListings text = .ok lexer
      ↔ List.Forall₂ Spells (runs List.isEmpty (lines text.toList)) lexer.automata := by
  rw [ofListings, bind_eq_ok_iff, ← Dfa.ofListings_eq_ok_iff]
  constructor
  · rintro ⟨automata, read, same⟩
    obtain rfl := Except.ok.inj same
    exact read
  · intro read
    exact ⟨lexer.automata, read, rfl⟩

/-- No label that was read from a listing has a line feed in it. -/
theorem not_mem_label_of_ofListings {text : String} {lexer : Lexer}
    (read : ofListings text = .ok lexer)
    : ∀ dfa ∈ lexer.automata, '\n' ∉ dfa.label.toList := by
  intro dfa mem
  obtain ⟨run, found, spelled⟩ := exists_mem_of_forall₂ (ofListings_eq_ok_iff.mp read).flip mem
  exact not_mem_of_mem_lines (of_mem_runs found (Dfa.label_mem_of_spells spelled)).1

/-- The lexer was read from token rules or from listings. Numbers of states are words, also those of
the automata that were compiled.
-/
inductive Loaded : Lexer → Prop
  | rules {text : String} {lexer : Lexer} (read : ofRuleText text = .ok lexer)
    (sized : ∀ dfa ∈ lexer.automata, dfa.WordSized)
    : Loaded lexer
  | listings {text : String} {lexer : Lexer} (read : ofListings text = .ok lexer) : Loaded lexer

/-- All automata of a lexer that was loaded in one of the ways can be stored, whether their rules
were compiled or their listings read.
-/
theorem Loaded.storable {lexer : Lexer} (h : lexer.Loaded)
    : ∀ dfa ∈ lexer.automata, dfa.Storable := by
  intro dfa mem
  cases h with
  | rules read sized =>
      obtain ⟨rules, found, compiled⟩ := exists_rules_of_ofRuleText read
      obtain ⟨rule, given, compiled⟩ := exists_mem_of_forall₂ compiled.flip mem
      obtain ⟨statement, _, stated⟩ := exists_mem_of_forall₂ (mapM_eq_ok_iff.mp found).flip given
      obtain ⟨tree, _, rfl⟩ := Rule.exists_ofTree_of_compile compiled
      exact Dfa.storable_ofTree (sized _ mem) (Rule.label_ne_empty stated)
  | listings read =>
      obtain ⟨run, found, spelled⟩ := exists_mem_of_forall₂ (ofListings_eq_ok_iff.mp read).flip mem
      refine Dfa.storable_of_spells spelled fun line there => ?_
      exact List.isEmpty_eq_false_iff.mp (of_mem_runs found there).2

/-- A lexer whose labels have no line feeds is read back automaton by automaton. -/
theorem ofListings_listing_eq_ok_iff {lexer again : Lexer} (loaded : lexer.Loaded)
    (whole : ∀ dfa ∈ lexer.automata, '\n' ∉ dfa.label.toList)
    : ofListings lexer.listing = .ok again
      ↔ List.Forall₂ Dfa.ReadAs lexer.automata again.automata := by
  have letters : ∀ dfa ∈ lexer.automata, alphabetLine dfa.alphabet ≠ [] := fun dfa mem =>
    alphabetLine_ne_nil (loaded.storable dfa mem).letters
  rw [ofListings_eq_ok_iff, listing, String.toList_ofList]
  exact Dfa.spells_listingsText_iff letters whole

/-- A lexer with legible automata is read back as it was. -/
theorem ofListings_listing_of_legible {lexer : Lexer} (loaded : lexer.Loaded)
    (legible : ∀ dfa ∈ lexer.automata, dfa.Legible)
    : ofListings lexer.listing = .ok lexer := by
  rw [ofListings_listing_eq_ok_iff loaded fun dfa mem => (legible dfa mem).1, List.forall₂_same]
  exact fun dfa mem => (legible dfa mem).readAs (loaded.storable dfa mem)

/-- If the labels come back, then none of them was cut, and no line of final states was empty. -/
theorem legible_of_ofListings_listing {lexer again : Lexer} (loaded : lexer.Loaded)
    (read : ofListings lexer.listing = .ok again) (labels : again.labels = lexer.labels)
    : ∀ dfa ∈ lexer.automata, dfa.Legible := by
  have whole : ∀ dfa ∈ lexer.automata, '\n' ∉ dfa.label.toList := by
    intro dfa mem
    have there : dfa.label ∈ again.labels := labels ▸ List.mem_map_of_mem mem
    obtain ⟨other, mem, same⟩ := List.mem_map.mp there
    exact same ▸ not_mem_label_of_ofListings read other mem
  have pairs := (ofListings_listing_eq_ok_iff loaded whole).mp read
  have chomped : again.labels
      = lexer.automata.map fun dfa => String.ofList (chomp dfa.label.toList) := by
    rw [Lexer.labels, ← List.forall₂_eq_eq_eq, List.forall₂_map_left_iff,
      List.forall₂_map_right_iff]
    exact pairs.flip.imp fun _ _ paired => (Dfa.of_spells_linesRead paired.2).2
  rw [labels, Lexer.labels, List.map_inj_left] at chomped
  intro dfa mem
  refine ⟨whole dfa mem, ?_, ?_⟩
  · have same := congrArg String.toList (chomped dfa mem)
    rw [String.toList_ofList] at same
    exact chomp_eq_self_iff.mp same.symm
  · obtain ⟨_, _, paired⟩ := exists_mem_of_forall₂ pairs mem
    exact (Dfa.of_spells_linesRead paired.2).1

/-- A loaded lexer comes back from its listing with the same labels exactly if every label fits on a
line and every automaton has a final state. Then the same automata come back, with the same listing
and the same outcome for every input.
-/
theorem ofListings_listing_iff {lexer : Lexer} (loaded : lexer.Loaded)
    : ((∃ again, ofListings lexer.listing = .ok again ∧ again.labels = lexer.labels)
        ↔ ∀ dfa ∈ lexer.automata, dfa.Legible)
      ∧ ∀ again, ofListings lexer.listing = .ok again → again.labels = lexer.labels →
          again.automata = lexer.automata ∧ again.listing = lexer.listing
          ∧ ∀ input, again.tokenize input = lexer.tokenize input := by
  refine ⟨⟨?_, ?_⟩, ?_⟩
  · rintro ⟨again, read, labels⟩
    exact legible_of_ofListings_listing loaded read labels
  · intro legible
    exact ⟨lexer, ofListings_listing_of_legible loaded legible, rfl⟩
  · intro again read labels
    have legible := legible_of_ofListings_listing loaded read labels
    obtain rfl := Except.ok.inj (read.symm.trans (ofListings_listing_of_legible loaded legible))
    exact ⟨rfl, rfl, fun _ => rfl⟩

/-- Listings of two automata, one with a carriage return inside its label and with the largest
number that a state can have.
-/
def twoListings : String :=
  "a\nA\n0\n0,'a',1\n1\n\n" ++ "bc\nB\rC\n5\n5,'b',5\n5,'c',18446744073709551615\n"
    ++ "+18446744073709551615 5\n"

/-- Two listings, with a carriage return inside a label and the largest number, are loaded, written
and read back with labels, automata and tokens as before.
-/
theorem ofListings_listing_twoListings
    : ∃ lexer,
        ofListings twoListings = .ok lexer ∧ lexer.Loaded
        ∧ (∀ dfa ∈ lexer.automata, dfa.Legible)
        ∧ ∃ again,
            ofListings lexer.listing = .ok again ∧ again.labels = ["A", "B\rC"]
            ∧ again.automata = lexer.automata ∧ again.listing = lexer.listing
            ∧ ∀ input, again.tokenize input = lexer.tokenize input := by
  have outcome : (ofListings twoListings).map (·.automata.map fun dfa => (dfa.label, dfa.finals))
      = .ok [("A", .ofList [1]), ("B\rC", .ofList [5, 18446744073709551615])] := by
    decide +kernel
  obtain ⟨lexer, read, parts⟩ := map_eq_ok_iff.mp outcome
  have labels : lexer.labels = ["A", "B\rC"] := by
    have first := congrArg (List.map Prod.fst) parts
    rwa [List.map_map] at first
  have legible : ∀ dfa ∈ lexer.automata, dfa.Legible := by
    intro dfa mem
    have there : (dfa.label, dfa.finals) ∈ [("A", .ofList [1]), _] :=
      parts ▸ List.mem_map_of_mem mem
    rw [List.mem_pair, Prod.mk.injEq, Prod.mk.injEq] at there
    rcases there with ⟨label, finals⟩ | ⟨label, finals⟩
    · rw [Dfa.Legible, label, finals]
      decide
    · rw [Dfa.Legible, label, finals]
      decide
  have loaded : lexer.Loaded := .listings read
  obtain ⟨comesBack, same⟩ := ofListings_listing_iff loaded
  obtain ⟨again, readAgain, labelsAgain⟩ := comesBack.mpr legible
  exact ⟨lexer, read, loaded, legible, again, readAgain, labelsAgain.trans labels,
    same again readAgain labelsAgain⟩

/-- A label with a line feed is listed as two lines, so it does not come back. -/
theorem not_ofListings_listing_lineFeed
    : ∃ lexer,
        ofRuleText "A\nB a;\n" = .ok lexer
        ∧ ¬∃ again, ofListings lexer.listing = .ok again ∧ again.labels = lexer.labels := by
  have found : Rule.ofText "A\nB a;\n" = .ok [⟨"A\nB", "a"⟩] := by decide +kernel
  have tree : Regex.parse "a" = .ok (.literal 'a') := by decide +kernel
  have read : ofRuleText "A\nB a;\n" = .ok ⟨[Dfa.ofTree (.literal 'a') "A\nB"]⟩ := by
    rw [ofRuleText, found]
    simp only [bind, Except.bind, ofRules, List.mapM_cons, List.mapM_nil, Rule.compile,
      Dfa.ofRegex, tree]
    rfl
  refine ⟨_, read, ?_⟩
  rintro ⟨again, read, labels⟩
  have there : "A\nB" ∈ again.labels := labels ▸ List.mem_singleton.mpr rfl
  obtain ⟨dfa, mem, label⟩ := List.mem_map.mp there
  exact not_mem_label_of_ofListings read dfa mem (label ▸ by decide)

end Lexer

end Munch
