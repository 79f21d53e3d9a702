import Munch.Text.Whitespace

/-! Texts taken apart: into lines, into runs between separators, into words, and into the two sides
of a mark. Texts are lists of characters here, and every function recurs on them.
-/

namespace Munch.Text

variable {α : Type}

/-- Puts an element in front of the first list, opening a list where there is none. -/
def consFirst (a : α) : List (List α) → List (List α)
  | [] => [[a]]
  | first :: more => (a :: first) :: more

/-- The lines of a text. A line feed ends a line and takes one carriage return directly
before it along; nothing follows a line feed at the end of the text, and a carriage return
there without one belongs to the line.
-/
def lines : List Char → List (List Char)
  | [] => []
  | '\n' :: rest => [] :: lines rest
  | '\r' :: '\n' :: rest => [] :: lines rest
  | c :: rest => consFirst c (lines rest)

/-- The longest stretches of elements that are no separators. -/
def runs (isSeparator : α → Bool) : List α → List (List α)
  | [] => []
  | a :: rest =>
      if isSeparator a then runs isSeparator rest
      else if rest.head?.all isSeparator then [a] :: runs isSeparator rest
      else consFirst a (runs isSeparator rest)

/-- The words of a text, which white space divides. -/
def words (text : List Char) : List (List Char) :=
  runs isWhite text

/-- The two sides of the first place at which the mark stands in the text. -/
def cutAtFirst? (mark : List Char) : List Char → Option (List Char × List Char)
  | [] => none
  | c :: rest =>
      if mark.isPrefixOf (c :: rest) then some ([], (c :: rest).drop mark.length)
      else (cutAtFirst? mark rest).map fun (before, after) => (c :: before, after)

/-- The two sides of the last place at which the mark stands in the text. -/
def cutAtLast? (mark : List Char) : List Char → Option (List Char × List Char)
  | [] => none
  | c :: rest =>
      match cutAtLast? mark rest with
      | some (before, after) => some (c :: before, after)
      | none =>
          if mark.isPrefixOf (c :: rest) then some ([], (c :: rest).drop mark.length) else none

/-- What either kind of cut takes apart is the two sides with the mark between them. -/
theorem eq_append_of_isPrefixOf {mark text : List Char} (h : mark.isPrefixOf text = true)
    : text = mark ++ text.drop mark.length := by
  obtain ⟨rest, rfl⟩ := List.isPrefixOf_iff_prefix.mp h
  simp

/-- The pieces of a text that is cut at the first mark make up the text, with the mark between them.
By induction on the text.
-/
theorem eq_append_of_cutAtFirst? {mark text before after : List Char}
    (h : cutAtFirst? mark text = some (before, after))
    : text = before ++ mark ++ after := by
  induction text generalizing before with
  | nil => simp [cutAtFirst?] at h
  | cons c rest ih =>
      unfold cutAtFirst? at h
      split at h
      · rename_i here
        obtain ⟨rfl, rfl⟩ := Prod.mk.inj (Option.some.inj h)
        exact eq_append_of_isPrefixOf here
      · obtain ⟨⟨front, back⟩, found, same⟩ := Option.map_eq_some_iff.mp h
        obtain ⟨rfl, rfl⟩ := Prod.mk.inj same
        simp [ih found]

/-- The pieces of a text that is cut at the last mark make up the text, with the mark between them.
-/
theorem eq_append_of_cutAtLast? {mark text before after : List Char}
    (h : cutAtLast? mark text = some (before, after))
    : text = before ++ mark ++ after := by
  induction text generalizing before with
  | nil => simp [cutAtLast?] at h
  | cons c rest ih =>
      unfold cutAtLast? at h
      split at h
      · rename_i found
        obtain ⟨rfl, rfl⟩ := Prod.mk.inj (Option.some.inj h)
        simp [ih found]
      · split at h
        · rename_i here
          obtain ⟨rfl, rfl⟩ := Prod.mk.inj (Option.some.inj h)
          exact eq_append_of_isPrefixOf here
        · simp at h

end Munch.Text
