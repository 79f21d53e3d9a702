import Munch.Proofs.Outcomes
import Munch.Proofs.PiecesOfText

/-! The format of listings. It is stated without line numbers and without a reader, as a relation
between the texts of the lines and an automaton. Reading succeeds exactly on the texts of the
format, and gives the automaton that they spell.
-/

namespace Munch

namespace Listing

open Text

-----------------------------------------------------------------------------------------
-- The format
-----------------------------------------------------------------------------------------

/-- The text is the number of the state, with white space around it. -/
def SpellsState (text : List Char) (q : State) : Prop :=
  readDecimal? (trim text) = some q

/-- The text is a transition: its source, a symbol between marks, and its target. -/
inductive SpellsTransition (text : List Char) (t : Transition Char) : Prop
  | intro {source rest spelling target : List Char}
    (first : cutAtFirst? beforeSymbol text = some (source, rest))
    (last : cutAtLast? afterSymbol rest = some (spelling, target))
    (symbol : readSymbol? spelling = some t.symbol) (onset : SpellsState source t.source)
    (goal : SpellsState target t.target)

/-- The texts are the lines of a listing: alphabet, label, start state, transitions, and final
states.
-/
inductive Spells : List (List Char) → Dfa → Prop
  | intro {alphabet label start last : List Char} {body : List (List Char)}
    {symbols : List Char} {first : State} {transitions : List (Transition Char)}
    {finals : List State}
    (letters : unescapeAll? alphabet = some symbols)
    (starts : SpellsState start first)
    (steps : List.Forall₂ SpellsTransition body transitions)
    (ends : List.Forall₂ SpellsState (words last) finals)
    : Spells (alphabet :: label :: start :: (body ++ [last]))
        (.ofParts symbols (.ofList label) first (.ofList finals) ⟨transitions⟩)

-----------------------------------------------------------------------------------------
-- Readers of single lines
-----------------------------------------------------------------------------------------

/-- Reading a state succeeds exactly on the texts that spell it. -/
theorem readState_eq_ok_iff {line : Nat} {text : List Char} {q : State}
    : readState line text = .ok q ↔ SpellsState text q := by
  unfold readState SpellsState
  cases readDecimal? (trim text) <;> simp

/-- Reading an alphabet succeeds exactly on the lines of which all escapes can be undone. -/
theorem readAlphabet_eq_ok_iff {line : Line} {symbols : List Char}
    : readAlphabet line = .ok symbols ↔ unescapeAll? line.text = some symbols := by
  unfold readAlphabet
  cases unescapeAll? line.text <;> simp

/-- Reading states succeeds exactly on the lines of which each word spells one. -/
theorem readStates_eq_ok_iff {line : Line} {states : List State}
    : readStates line = .ok states ↔ List.Forall₂ SpellsState (words line.text) states := by
  rw [readStates, mapM_eq_ok_iff]
  simp only [readState_eq_ok_iff]

/-- Reading a transition succeeds exactly on the lines that spell it. -/
theorem readTransition_eq_ok_iff {line : Line} {t : Transition Char}
    : readTransition line = .ok t ↔ SpellsTransition line.text t := by
  constructor
  · intro h
    unfold readTransition at h
    split at h
    · rename_i source rest first
      split at h
      · rename_i spelling target last
        split at h
        · rename_i symbol readable
          obtain ⟨onset, starts, h⟩ := bind_eq_ok_iff.mp h
          obtain ⟨goal, ends, h⟩ := bind_eq_ok_iff.mp h
          obtain rfl := Except.ok.inj h
          exact ⟨first, last, readable, readState_eq_ok_iff.mp starts,
            readState_eq_ok_iff.mp ends⟩
        · cases h
      · cases h
    · cases h
  · intro h
    obtain ⟨first, last, readable, onset, goal⟩ := h
    simp only [readTransition, first, last, readable]
    exact bind_eq_ok_iff.mpr ⟨_, readState_eq_ok_iff.mpr onset,
      bind_eq_ok_iff.mpr ⟨_, readState_eq_ok_iff.mpr goal, rfl⟩⟩

-----------------------------------------------------------------------------------------
-- Readers of whole texts
-----------------------------------------------------------------------------------------

/-- A listing has at least four lines, the last of which has the final states. -/
theorem readLines_concat {alphabet label start last : Line} {body : List Line}
    : readLines (alphabet :: label :: start :: (body ++ [last])) = do
        let symbols ← readAlphabet alphabet
        let first ← readState start.number start.text
        let transitions ← body.mapM readTransition
        let finals ← readStates last
        return .ofParts symbols (.ofList label.text) first (.ofList finals) ⟨transitions⟩ := by
  cases body with
  | nil => rfl
  | cons fourth more =>
      rw [List.cons_append, readLines]
      simp only [← List.cons_append, List.dropLast_concat, List.getLast_append_singleton]

/-- Four lines or more are three lines, a body that may be empty, and a last line. -/
theorem exists_eq_concat {α : Type} {block : List α} (many : 4 ≤ block.length)
    : ∃ alphabet label start body last,
        block = alphabet :: label :: start :: (body ++ [last]) := by
  match block with
  | alphabet :: label :: start :: fourth :: more =>
      have some : fourth :: more ≠ [] := List.cons_ne_nil fourth more
      exact ⟨alphabet, label, start, _, _, by rw [List.dropLast_append_getLast some]⟩

/-- Nothing shorter than four lines is read. -/
theorem length_of_readLines_eq_ok {block : List Line} {dfa : Dfa} (h : readLines block = .ok dfa)
    : 4 ≤ block.length := by
  match block with
  | [] | [_] | [_, _] | [_, _, _] => cases h
  | _ :: _ :: _ :: _ :: more => exact Nat.le_add_left 4 more.length

/-- Reading the lines of one listing succeeds exactly if their texts spell an automaton. -/
theorem readLines_eq_ok_iff {block : List Line} {dfa : Dfa}
    : readLines block = .ok dfa ↔ Spells (block.map Line.text) dfa := by
  constructor
  · intro h
    have many := length_of_readLines_eq_ok h
    obtain ⟨alphabet, label, start, body, last, rfl⟩ := exists_eq_concat many
    rw [readLines_concat] at h
    obtain ⟨symbols, letters, h⟩ := bind_eq_ok_iff.mp h
    obtain ⟨first, starts, h⟩ := bind_eq_ok_iff.mp h
    obtain ⟨transitions, steps, h⟩ := bind_eq_ok_iff.mp h
    obtain ⟨finals, ends, h⟩ := bind_eq_ok_iff.mp h
    obtain rfl := Except.ok.inj h
    simp only [List.map_cons, List.map_append, List.map_nil]
    refine .intro (readAlphabet_eq_ok_iff.mp letters) (readState_eq_ok_iff.mp starts) ?_
      (readStates_eq_ok_iff.mp ends)
    simpa [readTransition_eq_ok_iff] using mapM_eq_ok_iff.mp steps
  · intro h
    generalize spelled : block.map Line.text = texts at h
    cases h with
    | intro letters starts steps ends =>
        simp only [List.map_eq_cons_iff, List.map_eq_append_iff, List.map_eq_nil_iff] at spelled
        obtain ⟨alphabet, _, rfl, rfl, label, _, rfl, rfl, start, _, rfl, rfl, body, _, rfl, rfl,
          last, _, rfl, rfl, rfl⟩ := spelled
        rw [List.forall₂_map_left_iff] at steps
        simp only [← readTransition_eq_ok_iff] at steps
        rw [readLines_concat]
        refine bind_eq_ok_iff.mpr ⟨_, readAlphabet_eq_ok_iff.mpr letters, ?_⟩
        refine bind_eq_ok_iff.mpr ⟨_, readState_eq_ok_iff.mpr starts, ?_⟩
        refine bind_eq_ok_iff.mpr ⟨_, mapM_eq_ok_iff.mpr steps, ?_⟩
        exact bind_eq_ok_iff.mpr ⟨_, readStates_eq_ok_iff.mpr ends, rfl⟩

/-- Numbering leaves the texts of the lines as they are. -/
theorem map_text_numbered (first : Nat) (texts : List (List Char))
    : (numbered first texts).map Line.text = texts := by
  rw [numbered, List.map_map]
  exact List.zipIdx_map_fst first texts

/-- The texts of the numbered lines are the lines of the text. -/
theorem map_text_numberedLines (text : List Char)
    : (numberedLines text).map Line.text = lines text :=
  map_text_numbered 1 (lines text)

end Listing

open Listing Text

/-- A text is read as an automaton exactly if its lines spell it, without the line feeds at the end
of the text.
-/
theorem Dfa.ofListing_eq_ok_iff {text : String} {dfa : Dfa}
    : Dfa.ofListing text = .ok dfa
      ↔ Spells (lines (dropEndWhile (· = '\n') text.toList)) dfa := by
  rw [Dfa.ofListing, readLines_eq_ok_iff, map_text_numberedLines]

/-- A text of several listings is read exactly if each run of its lines without empty ones spells
an automaton.
-/
theorem Dfa.ofListings_eq_ok_iff {text : String} {automata : List Dfa}
    : Dfa.ofListings text = .ok automata
      ↔ List.Forall₂ Spells (runs List.isEmpty (lines text.toList)) automata := by
  have stretches
      : blocks text.toList = runs (·.text.isEmpty) (numberedLines text.toList) :=
    rfl
  rw [Dfa.ofListings, mapM_eq_ok_iff, ← map_text_numberedLines, runs_map, stretches,
    List.forall₂_map_left_iff]
  simp only [readLines_eq_ok_iff]

end Munch
