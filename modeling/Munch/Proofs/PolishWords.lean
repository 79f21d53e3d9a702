import Munch.Proofs.InfixFaults
import Munch.Proofs.PiecesOfText

/-! Trees written as words in Polish notation. The names of the head symbols read back as the tree,
however much white space stands between them. A name keeps its white space in quotes, but words do
not: a blank character falls into two quotes, each of them a literal of its own. That is one tree
more than the operators take, so a tree is complete before the words end.
-/

namespace Munch

-----------------------------------------------------------------------------------------
-- Words with white space between them
-----------------------------------------------------------------------------------------

namespace Text

/-- The text is the pieces in their order, with some white space between any two neighbours. -/
inductive SpacedOut : List (List Char) → List Char → Prop where
  | last (piece : List Char) : SpacedOut [piece] piece
  | before (piece gap : List Char) {pieces : List (List Char)} {text : List Char} (some : gap ≠ [])
      (white : ∀ c ∈ gap, isWhite c = true) (rest : SpacedOut pieces text)
      : SpacedOut (piece :: pieces) (piece ++ gap ++ text)

/-- White space divides the words before it from those behind it. -/
theorem words_append_gap {gap : List Char} (some : gap ≠ [])
    (white : ∀ c ∈ gap, isWhite c = true) (front back : List Char)
    : words (front ++ gap ++ back) = words front ++ words back := by
  have bottom : (gap ++ back).head?.all isWhite = true := by
    obtain ⟨c, gap, rfl⟩ := List.exists_cons_of_ne_nil some
    exact white c List.mem_cons_self
  rw [List.append_assoc, words, runs_append_of_bottom bottom, runs_separators_append white]
  rfl

/-- The words of the text are those of the pieces, by induction on the pieces. -/
theorem SpacedOut.words_eq {pieces : List (List Char)} {text : List Char}
    (h : SpacedOut pieces text)
    : words text = pieces.flatMap words := by
  induction h with
  | last piece => rw [List.flatMap_singleton]
  | before piece gap some white _ ih => rw [words_append_gap some white, ih, List.flatMap_cons]

end Text

namespace Regex

-----------------------------------------------------------------------------------------
-- Names read back
-----------------------------------------------------------------------------------------

/-- White space that is written as itself: all of it but line feeds and tabs. -/
def isBlank (c : Char) : Bool :=
  Text.isWhite c && c != '\n' && c != '\t'

/-- What the words of a name are read as: the symbol, or two quotes if it is a blank character. -/
def Head.readBack : Head → List Head
  | .literal c => if isBlank c then [.literal '\'', .literal '\''] else [.literal c]
  | symbol => [symbol]

/-- Words in two stretches are read one stretch behind the other, by induction on the first. -/
theorem ofWords_append {front back : List (List Char)} {symbols more : List Head}
    (hf : ofWords front = .ok symbols) (hb : ofWords back = .ok more)
    : ofWords (front ++ back) = .ok (symbols ++ more) := by
  induction front generalizing symbols with
  | nil =>
      obtain rfl := Except.ok.inj hf
      exact hb
  | cons word front ih =>
      rw [ofWords] at hf
      split at hf
      · rename_i symbol named
        obtain ⟨others, found, rfl⟩ := map_eq_ok_iff.mp hf
        rw [List.cons_append, ofWords, named]
        simp only [ih found]
        rfl
      · cases hf

/-- A word that is shorter than the names of the operators is none of them. -/
theorem not_operator_of_length_lt {word : List Char} (short : word.length < 4)
    : word ≠ "CONCAT".toList ∧ word ≠ "UNION".toList ∧ word ≠ "STAR".toList
      ∧ word ≠ "PLUS".toList := by
  have other {name : List Char} (long : 4 ≤ name.length) : word ≠ name := by
    rintro rfl
    exact Nat.not_lt.mpr long short
  exact ⟨other (by decide), other (by decide), other (by decide), other (by decide)⟩

/-- A single character is a literal, whatever it is. -/
theorem ofWord?_single (c : Char) : Head.ofWord? [c] = some (.literal c) := by
  obtain ⟨concat, union, star, plus⟩ := @not_operator_of_length_lt [c] (by simp)
  unfold Head.ofWord?
  rw [if_neg concat, if_neg union, if_neg star, if_neg plus]

/-- A character between quotes is a literal, whatever it is. -/
theorem ofWord?_quoted (c : Char) : Head.ofWord? ['\'', c, '\''] = some (.literal c) := by
  obtain ⟨concat, union, star, plus⟩ :=
    @not_operator_of_length_lt ['\'', c, '\''] (by simp)
  unfold Head.ofWord?
  rw [if_neg concat, if_neg union, if_neg star, if_neg plus]
  exact if_pos ⟨rfl, rfl⟩

/-- A name without white space is one word. -/
theorem ofWords_words_of_dark {word : List Char} {symbol : Head} (some : word ≠ [])
    (dark : ∀ c ∈ word, Text.isWhite c = false) (named : Head.ofWord? word = .some symbol)
    : ofWords (Text.words word) = .ok [symbol] := by
  rw [Text.words, Text.runs_of_forall_not some dark, ofWords, named]
  rfl

/-- The quotes around a blank character are words of their own. -/
theorem words_quoted_white {c : Char} (white : Text.isWhite c = true)
    : Text.words ['\'', c, '\''] = [['\''], ['\'']] :=
  Text.words_append_gap (List.cons_ne_nil c []) (by simpa using white) ['\''] ['\'']

/-- A literal is named by an escape, by its character in quotes, or by its character alone. -/
theorem name_literal (c : Char)
    : (Head.literal c).name
      = if c = '\n' then ['\'', '\\', 'n', '\'']
        else if c = '\t' then ['\'', '\\', 't', '\'']
        else if needsQuotes c then ['\'', c, '\'']
        else [c] :=
  rfl

/-- The words of a name are read as the symbol, unless blank white space between the quotes takes
them apart.
-/
theorem ofWords_words_name (symbol : Head)
    : ofWords (Text.words symbol.name) = .ok symbol.readBack := by
  cases symbol with
  | star | plus | concat | union => decide
  | literal c =>
      by_cases lineFeed : c = '\n'
      · subst lineFeed
        decide
      by_cases tab : c = '\t'
      · subst tab
        decide
      have quote : Text.isWhite '\'' = false := by decide
      rw [name_literal, if_neg lineFeed, if_neg tab, needsQuotes, Head.readBack, isBlank]
      cases white : Text.isWhite c with
      | true =>
          rw [Bool.true_or, if_pos rfl, words_quoted_white white]
          simp [lineFeed, tab, ofWords, ofWord?_single, Except.map]
      | false =>
          rw [Bool.false_or, Bool.false_and, Bool.false_and, if_neg Bool.false_ne_true]
          split
          · exact ofWords_words_of_dark (List.cons_ne_nil _ _) (by simp [quote, white])
              (ofWord?_quoted c)
          · exact ofWords_words_of_dark (List.cons_ne_nil _ _) (by simp [white])
              (ofWord?_single c)

/-- A text of names is read name by name. -/
theorem ofWords_of_spacedOut {symbols : List Head} {text : List Char}
    (h : Text.SpacedOut (symbols.map Head.name) text)
    : ofWords (Text.words text) = .ok (symbols.flatMap Head.readBack) := by
  rw [h.words_eq]
  clear h
  induction symbols with
  | nil => rfl
  | cons symbol symbols ih => exact ofWords_append (ofWords_words_name symbol) ih

-----------------------------------------------------------------------------------------
-- More trees than are taken
-----------------------------------------------------------------------------------------

/-- Symbols that give some trees more than they take begin with the notations of as many trees, by
induction on the symbols.
-/
theorem exists_trees_of_surplus {symbols : List Head} {count : Nat}
    (enough : (count : Int) ≤ surplus symbols)
    : ∃ (trees : List Regex) (rest : List Head),
        trees.length = count ∧ symbols = trees.flatMap (polish .leftToRight) ++ rest := by
  induction symbols generalizing count with
  | nil =>
      obtain rfl : count = 0 := by
        have none : surplus [] = 0 := rfl
        omega
      exact ⟨[], [], rfl, rfl⟩
  | cons symbol symbols ih =>
      cases count with
      | zero => exact ⟨[], symbol :: symbols, rfl, rfl⟩
      | succ count =>
          rw [surplus_cons] at enough
          obtain ⟨trees, rest, length_eq, rfl⟩ := @ih (symbol.arity + count) (by omega)
          have full : (trees.take symbol.arity).length = symbol.arity := by
            rw [List.length_take]
            omega
          obtain ⟨tree, assembled⟩ := exists_ofHead? full
          have begins : polish .leftToRight tree
              = symbol :: (trees.take symbol.arity).flatMap (polish .leftToRight) :=
            polish_of_assemble assembled
          refine ⟨tree :: trees.drop symbol.arity, rest, ?_, ?_⟩
          · rw [List.length_cons, List.length_drop]
            omega
          · rw [List.flatMap_cons, begins, List.cons_append, List.cons_append,
              ← List.flatMap_append, List.take_append_drop]

/-- The notation of a tree with more symbols behind it is that tree with a rest. -/
theorem value_polish_append (order : Polish.OperandOrder) (tree : Regex) {rest : List Head}
    (more : rest ≠ [])
    : (algebra order).value (polish order tree ++ rest) = .error (.trailing rest.length) := by
  obtain ⟨expression, spelled, evaluated⟩ := exists_expression order tree
  rw [← spelled, Polish.Algebra.value, Polish.Algebra.fold_items_append]
  simp [Polish.Outcome.andThen, evaluated, more]

/-- Symbols that give more than one tree are trailing, because the first tree is complete before
they end.
-/
theorem value_of_one_lt_surplus {symbols : List Head} (many : 1 < surplus symbols)
    : ∃ remaining,
        1 ≤ remaining
        ∧ (algebra .leftToRight).value symbols = .error (.trailing remaining) := by
  obtain ⟨trees, rest, single, rfl⟩ := @exists_trees_of_surplus symbols 1 (by omega)
  obtain ⟨tree, rfl⟩ := List.length_eq_one_iff.mp single
  rw [List.flatMap_singleton] at many ⊢
  have more : rest ≠ [] := by
    rintro rfl
    rw [List.append_nil, surplus_polish] at many
    exact absurd many (by decide)
  exact ⟨rest.length, List.length_pos_iff.mpr more, value_polish_append _ tree more⟩

-----------------------------------------------------------------------------------------
-- The names of a tree
-----------------------------------------------------------------------------------------

/-- Without blank literals every symbol is read back as itself. -/
theorem readBack_of_not_blank {symbols : List Head}
    (plain : ∀ c, .literal c ∈ symbols → isBlank c = false)
    : symbols.flatMap Head.readBack = symbols := by
  have kept : ∀ symbol ∈ symbols, symbol.readBack = [symbol] := by
    intro symbol mem
    cases symbol with
    | star | plus | concat | union => rfl
    | literal c => rw [Head.readBack, plain c mem, if_neg Bool.false_ne_true]
  rw [List.flatMap_congr kept, List.flatMap_singleton']

/-- Reading names back never loses a tree. -/
theorem surplus_le_readBack (symbols : List Head)
    : surplus symbols ≤ surplus (symbols.flatMap Head.readBack) := by
  induction symbols with
  | nil => exact Int.le_refl 0
  | cons symbol symbols ih =>
      have first : 1 - (symbol.arity : Int) ≤ surplus symbol.readBack := by
        cases symbol with
        | star | plus | concat | union => decide
        | literal c =>
            rw [Head.readBack]
            split <;> exact of_decide_eq_true rfl
      rw [surplus_cons, List.flatMap_cons, surplus_append]
      omega

/-- A blank character comes back as one tree more. -/
theorem surplus_lt_readBack {symbols : List Head} {c : Char} (mem : .literal c ∈ symbols)
    (blank : isBlank c = true)
    : surplus symbols < surplus (symbols.flatMap Head.readBack) := by
  obtain ⟨front, back, rfl⟩ := List.append_of_mem mem
  have before := surplus_le_readBack front
  have behind := surplus_le_readBack back
  have quotes : surplus (Head.literal c).readBack = 2 := by
    rw [Head.readBack, blank, if_pos rfl]
    rfl
  have one : ((Head.literal c).arity : Int) = 0 := rfl
  rw [List.flatMap_append, List.flatMap_cons]
  simp only [surplus_append, surplus_cons, quotes, one]
  omega

/-- The names of the head symbols of a tree, each before the names below it and with any white space
between them, read back as the tree if no literal is a blank character. If some literal is one,
words are left over behind a complete tree.
-/
theorem parsePolish_names (tree : Regex) {text : String}
    (apart : Text.SpacedOut ((preorder tree).map Head.name) text.toList)
    : ((∀ c, .literal c ∈ preorder tree → isBlank c = false) → parsePolish text = .ok tree)
      ∧ ((∃ c, .literal c ∈ preorder tree ∧ isBlank c = true)
          → ∃ remaining,
              1 ≤ remaining ∧ parsePolish text = .error (.malformed (.trailing remaining))) := by
  have read : parsePolish text
      = ofPolish .leftToRight ((preorder tree).flatMap Head.readBack) := by
    rw [parsePolish, ofPolishText, ofWords_of_spacedOut apart]
    rfl
  rw [read, ofPolish]
  constructor
  · intro plain
    rw [readBack_of_not_blank plain, mapError_eq_ok_iff, value_eq_ok_iff, polish_leftToRight]
  · intro h
    obtain ⟨c, mem, blank⟩ := h
    have many : 1 < surplus ((preorder tree).flatMap Head.readBack) := by
      have gained := surplus_lt_readBack mem blank
      rwa [← polish_leftToRight, surplus_polish, polish_leftToRight] at gained
    obtain ⟨remaining, some, failed⟩ := value_of_one_lt_surplus many
    exact ⟨remaining, some, mapError_eq_error_iff.mpr ⟨_, failed, rfl⟩⟩

/-- A quote, a backslash and a line feed read back; a space does not, and all from the repetition on
is left over.
-/
theorem parsePolish_names_quotes
    : let plain : Regex := .union (.concat (.literal '\'') (.literal '\\')) (.star (.literal '\n'))
      let blank : Regex := .concat (.literal ' ') (.star (.literal 'a'))
      Text.SpacedOut ((preorder plain).map Head.name) "UNION\t CONCAT ''' \\\nSTAR '\\n'".toList
      ∧ parsePolish "UNION\t CONCAT ''' \\\nSTAR '\\n'" = .ok plain
      ∧ Text.SpacedOut ((preorder blank).map Head.name) "CONCAT ' ' STAR a".toList
      ∧ ∃ remaining,
          1 ≤ remaining
          ∧ parsePolish "CONCAT ' ' STAR a" = .error (.malformed (.trailing remaining)) := by
  intro plain blank
  have white {gap : List Char} (all : gap.all Text.isWhite = true)
      : ∀ c ∈ gap, Text.isWhite c = true := List.all_eq_true.mp all
  have apart : Text.SpacedOut ((preorder plain).map Head.name)
      "UNION\t CONCAT ''' \\\nSTAR '\\n'".toList :=
    .before "UNION".toList ['\t', ' '] (by decide) (white rfl)
      (.before "CONCAT".toList [' '] (by decide) (white rfl)
        (.before "'''".toList [' '] (by decide) (white rfl)
          (.before "\\".toList ['\n'] (by decide) (white rfl)
            (.before "STAR".toList [' '] (by decide) (white rfl) (.last "'\\n'".toList)))))
  have apart' : Text.SpacedOut ((preorder blank).map Head.name) "CONCAT ' ' STAR a".toList :=
    .before "CONCAT".toList [' '] (by decide) (white rfl)
      (.before "' '".toList [' '] (by decide) (white rfl)
        (.before "STAR".toList [' '] (by decide) (white rfl) (.last "a".toList)))
  refine ⟨apart, (parsePolish_names plain apart).1 ?_, apart',
    (parsePolish_names blank apart').2 ?_⟩
  · intro c mem
    have literals : c = '\'' ∨ c = '\\' ∨ c = '\n' := by simpa [plain, preorder] using mem
    rcases literals with rfl | rfl | rfl <;> decide
  · exact ⟨' ', by decide, by decide⟩

end Regex

end Munch
