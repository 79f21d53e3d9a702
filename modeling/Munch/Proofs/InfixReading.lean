import Mathlib.Tactic.Common
import Mathlib.Data.List.Perm.Basic
import Mathlib.Algebra.BigOperators.Group.List.Basic
import Mathlib.Algebra.Ring.Int.Defs
import Munch.Proofs.InfixGrammar
import Munch.Proofs.Outcomes
import Munch.Proofs.PolishTrees

/-! Reading infix notation by operator precedence follows the grammar. Derived tokens leave the
operators of their own level waiting and nothing else; conversely a sequence that is read has one
operand more than binary operators, which no sequence with a missing operand has.
-/

namespace Munch.Regex

-----------------------------------------------------------------------------------------
-- Concatenations between neighbours
-----------------------------------------------------------------------------------------

/-- The concatenation that is understood between two stretches of tokens, if there is one. -/
def seam (front back : List Token) : List Token :=
  match front.getLast?, back.head? with
  | some left, some right => if left.juxtaposed right then [.head .concat] else []
  | _, _ => []

/-- The concatenations of some tokens are the one behind the first token, if it is understood there,
and those of the rest.
-/
theorem concatenated_cons (token : Token) (tokens : List Token)
    : concatenated (token :: tokens) = token :: (seam [token] tokens ++ concatenated tokens) := by
  cases tokens with
  | nil => rfl
  | cons next tokens =>
      simp only [concatenated, seam, List.getLast?_singleton, List.head?_cons]
      split <;> rfl

/-- Tokens that are put together get the concatenations of either part and the one between them, by
induction on the first part.
-/
theorem concatenated_append (front back : List Token)
    : concatenated (front ++ back)
      = concatenated front ++ seam front back ++ concatenated back := by
  induction front with
  | nil => simp [concatenated, seam]
  | cons token front ih =>
      rw [List.cons_append, concatenated_cons, ih, concatenated_cons]
      cases front with
      | nil => simp [seam, concatenated]
      | cons next front => simp [seam, List.getLast?_cons_cons]

/-- Between two operands there is a concatenation. -/
theorem concatenated_juxtaposed {front back : List Token} {left right : Level}
    {first second : Regex} (hf : Derives left front first) (hb : Derives right back second)
    : concatenated (front ++ back)
      = concatenated front ++ .head .concat :: concatenated back := by
  obtain ⟨others, last, rfl, ends⟩ := hf.ends
  obtain ⟨next, more, rfl, begins⟩ := hb.begins
  have joined : seam (others ++ [last]) (next :: more) = [.head .concat] := by
    simp [seam, Token.juxtaposed, ends, begins]
  rw [concatenated_append, joined, List.append_assoc, List.singleton_append]

/-- Before a token that begins no operand there is none. -/
theorem concatenated_apart {front back : List Token} {token : Token}
    (apart : token.beginsOperand = false)
    : concatenated (front ++ token :: back)
      = concatenated front ++ concatenated (token :: back) := by
  have none : seam front (token :: back) = [] := by
    unfold seam
    cases front.getLast? <;> simp [Token.juxtaposed, apart]
  rw [concatenated_append, none, List.append_nil]

/-- Behind a token that ends no operand there is none. -/
theorem concatenated_open {token : Token} {tokens : List Token}
    (apart : token.endsOperand = false)
    : concatenated (token :: tokens) = token :: concatenated tokens := by
  have none : seam [token] tokens = [] := by
    unfold seam
    cases tokens.head? <;> simp [Token.juxtaposed, apart]
  rw [concatenated_cons, none, List.nil_append]

-----------------------------------------------------------------------------------------
-- Derived tokens are reordered into the notation of their tree
-----------------------------------------------------------------------------------------

/-- An operator writes the waiting ones that bind as tightly, down to the first that does not. -/
theorem reorder_operator {symbol : Head} {tokens : List Token} {pushed waiting : List Head}
    {outer : List (List Head)} {written : List Head} (operator : ∀ c, symbol ≠ .literal c)
    (tight : ∀ other ∈ pushed, symbol.precedence ≤ other.precedence)
    (loose : ∀ other ∈ waiting, other.precedence < symbol.precedence)
    : reorder (.head symbol :: tokens) (pushed ++ waiting) outer written
      = reorder tokens (symbol :: waiting) outer (pushed.reverse ++ written) := by
  have yields : ∀ other ∈ pushed, symbol.yieldsTo other = true := fun other mem =>
    decide_eq_true (tight other mem)
  have stays : waiting.takeWhile symbol.yieldsTo = []
      ∧ waiting.dropWhile symbol.yieldsTo = waiting := by
    cases waiting with
    | nil => exact ⟨rfl, rfl⟩
    | cons other waiting =>
        have loose := loose other (by simp)
        simp [Head.yieldsTo, loose]
  have taken : (pushed ++ waiting).takeWhile symbol.yieldsTo = pushed := by
    rw [List.takeWhile_append_of_pos yields, stays.1, List.append_nil]
  have dropped : (pushed ++ waiting).dropWhile symbol.yieldsTo = waiting := by
    rw [List.dropWhile_append_of_pos yields, stays.2]
  rw [reorder, taken, dropped]
  exact operator

/-- Read where only operators wait that bind less tightly than the bound, the tokens leave operators
waiting that bind at least so tightly. With the output, these are the given symbols.
-/
def Yields (bound : Nat) (tokens : List Token) (symbols : List Head) : Prop :=
  ∀ rest waiting outer written,
    (∀ other ∈ waiting, other.precedence < bound)
    → ∃ pushed written',
        reorder (tokens ++ rest) waiting outer written
          = reorder rest (pushed ++ waiting) outer written'
        ∧ (∀ other ∈ pushed, bound ≤ other.precedence)
        ∧ pushed.reverse ++ written' = symbols ++ written

/-- A literal is written at once and leaves no operator waiting. -/
theorem yields_literal (bound : Nat) (c : Char) : Yields bound [.literal c] [.literal c] := by
  intro rest waiting outer written _
  exact ⟨[], _, rfl, by simp, rfl⟩

/-- A group may be read at any bound, for whatever waits in it is written at its end. -/
theorem Yields.group {tokens : List Token} {symbols : List Head} (bound : Nat)
    (h : Yields 1 tokens symbols)
    : Yields bound (.openGroup :: (tokens ++ [.closeGroup])) symbols := by
  intro rest waiting outer written _
  obtain ⟨pushed, written', read, _, spelled⟩ :=
    h (.closeGroup :: rest) [] (waiting :: outer) written (by simp)
  refine ⟨[], pushed.reverse ++ written', ?_, by simp, spelled⟩
  rw [List.cons_append, List.append_assoc, List.singleton_append, reorder, read,
    List.append_nil, reorder]
  rfl

/-- Operators that bind more tightly than a bound do so for every lower one. -/
theorem Yields.weaken {bound : Nat} {tokens : List Token} {symbols : List Head}
    (h : Yields (bound + 1) tokens symbols)
    : Yields bound tokens symbols := by
  intro rest waiting outer written loose
  obtain ⟨pushed, written', read, tight, spelled⟩ :=
    h rest waiting outer written fun other mem => Nat.lt_succ_of_lt (loose other mem)
  exact ⟨pushed, written', read, fun other mem => Nat.le_of_lt (tight other mem), spelled⟩

/-- An operator behind its operand makes those wait no longer that bind as tightly, and waits then
itself.
-/
theorem Yields.operator {tokens : List Token} {symbols : List Head} (symbol : Head)
    (operator : ∀ c, symbol ≠ .literal c) (h : Yields symbol.precedence tokens symbols)
    : Yields symbol.precedence (tokens ++ [.head symbol]) (symbol :: symbols) := by
  intro rest waiting outer written loose
  obtain ⟨pushed, written', read, tight, spelled⟩ :=
    h (.head symbol :: rest) waiting outer written loose
  refine ⟨[symbol], pushed.reverse ++ written', ?_, by simp, by simp [spelled]⟩
  rw [List.append_assoc, List.singleton_append, read, reorder_operator operator tight loose]
  rfl

/-- The operand on the right binds more tightly than the operator, so nothing in it makes the
operator leave.
-/
theorem Yields.binary {front back : List Token} {left right : List Head} (symbol : Head)
    (operator : ∀ c, symbol ≠ .literal c) (first : Yields symbol.precedence front left)
    (second : Yields (symbol.precedence + 1) back right)
    : Yields symbol.precedence (front ++ .head symbol :: back)
        (symbol :: (right ++ left)) := by
  intro rest waiting outer written loose
  obtain ⟨pushed, written', read, tight, spelled⟩ :=
    first (.head symbol :: (back ++ rest)) waiting outer written loose
  have loose' : ∀ other ∈ symbol :: waiting, other.precedence < symbol.precedence + 1 := by
    intro other mem
    rcases List.mem_cons.mp mem with rfl | mem
    · exact Nat.lt_succ_self _
    · exact Nat.lt_succ_of_lt (loose other mem)
  obtain ⟨more, written'', read', tight', spelled'⟩ :=
    second rest (symbol :: waiting) outer (pushed.reverse ++ written') loose'
  refine ⟨more ++ [symbol], written'', ?_, ?_, ?_⟩
  · rw [List.append_assoc, List.cons_append, read, reorder_operator operator tight loose,
      read', List.append_assoc]
    rfl
  · intro other mem
    rcases List.mem_append.mp mem with mem | mem
    · exact Nat.le_of_lt (tight' other mem)
    · obtain rfl := List.mem_singleton.mp mem
      exact Nat.le_refl _
  · rw [List.reverse_append, List.append_assoc, spelled', spelled]
    simp

/-- The precedence of the operators that may wait when tokens of the level have been read. -/
def Level.bound : Level → Nat
  | .expression => 1
  | .term => 2
  | .factor => 3
  | .atom => 4

/-- Derived tokens are read as the notation of their tree, by induction on the derivation. -/
theorem yields_of_derives {level : Level} {tokens : List Token} {tree : Regex}
    (h : Derives level tokens tree)
    : Yields level.bound (concatenated tokens) (polish .rightToLeft tree) := by
  induction h with
  | literal c => exact yields_literal _ c
  | group _ ih =>
      rw [concatenated_open rfl, concatenated_apart rfl]
      exact ih.group _
  | atom _ ih | factor _ ih | term _ ih => exact ih.weaken
  | star _ ih =>
      rw [concatenated_apart rfl]
      exact Yields.operator .star (by simp) ih
  | plus _ ih =>
      rw [concatenated_apart rfl]
      exact Yields.operator .plus (by simp) ih
  | concat first second ihFirst ihSecond =>
      rw [concatenated_juxtaposed first second]
      exact Yields.binary .concat (by simp) ihFirst ihSecond
  | union _ _ ihFirst ihSecond =>
      rw [concatenated_apart rfl, concatenated_open rfl]
      exact Yields.binary .union (by simp) ihFirst ihSecond

/-- The conversion succeeds exactly if reading all tokens does, with nothing waiting at the
beginning.
-/
theorem toPolish_eq_ok_iff {tokens : List Token} {symbols : List Head}
    : toPolish tokens = .ok symbols ↔ reorder tokens [] [] [] = some symbols := by
  unfold toPolish
  cases reorder tokens [] [] [] with
  | none => simp
  | some symbols => simp

/-- Tokens that are read are reordered into the notation of their tree. -/
theorem ofTokens_eq_ok_iff {tokens : List Token} {tree : Regex}
    : ofTokens tokens = .ok tree
      ↔ reorder tokens [] [] [] = some (polish .rightToLeft tree) := by
  rw [← toPolish_eq_ok_iff, ofTokens, bind_eq_ok_iff]
  simp only [ofPolish, mapError_eq_ok_iff, value_eq_ok_iff, exists_eq_right]

/-- Tokens that derive a tree are read as that tree, once the concatenations are put in. -/
theorem ofTokens_of_derives {tokens : List Token} {tree : Regex}
    (h : Derives .expression tokens tree)
    : ofTokens (concatenated tokens) = .ok tree := by
  obtain ⟨pushed, written, read, _, spelled⟩ := yields_of_derives h [] [] [] [] (by simp)
  simp only [List.append_nil] at read spelled
  rw [ofTokens_eq_ok_iff, read, reorder, spelled]

-----------------------------------------------------------------------------------------
-- Tokens that are read are balanced, and no operand is missing
-----------------------------------------------------------------------------------------

/-- The head symbols among some tokens. -/
def heads : List Token → List Head
  | [] => []
  | .head symbol :: tokens => symbol :: heads tokens
  | _ :: tokens => heads tokens

/-- How many trees the symbols give more than they take. -/
def surplus (symbols : List Head) : Int :=
  (symbols.map fun symbol => 1 - (symbol.arity : Int)).sum

/-- A symbol gives one tree and takes as many as its arity tells. -/
theorem surplus_cons (symbol : Head) (symbols : List Head)
    : surplus (symbol :: symbols) = 1 - (symbol.arity : Int) + surplus symbols := by
  simp [surplus]

/-- The surplus of two stretches is the sum of theirs. -/
theorem surplus_append (front back : List Head)
    : surplus (front ++ back) = surplus front + surplus back := by
  simp [surplus]

/-- The order of the symbols does not matter to the surplus. -/
theorem surplus_of_perm {symbols others : List Head} (h : symbols.Perm others)
    : surplus symbols = surplus others :=
  (h.map fun symbol : Head => 1 - (symbol.arity : Int)).sum_eq

/-- The notation of a tree gives that tree and takes all others, by induction on the tree. -/
theorem surplus_polish (order : Polish.OperandOrder) (tree : Regex)
    : surplus (polish order tree) = 1 := by
  induction tree with
  | literal c => rfl
  | star inner ih | plus inner ih =>
      rw [polish, surplus_cons, ih]
      rfl
  | concat left right ihLeft ihRight | union left right ihLeft ihRight =>
      cases order <;>
        simp only [polish, inOrder, surplus_cons, surplus_append, ihLeft, ihRight, Head.arity] <;>
        omega

/-- Reordering keeps every symbol, by induction on the tokens. -/
theorem perm_of_reorder {tokens : List Token} {waiting : List Head}
    {outer : List (List Head)} {written symbols : List Head}
    (h : reorder tokens waiting outer written = some symbols)
    : symbols.Perm (heads tokens ++ waiting ++ outer.flatten ++ written) := by
  fun_induction reorder tokens waiting outer written with
  | case1 waiting written =>
      obtain rfl := Option.some.inj h
      simpa [heads] using (List.reverse_perm waiting).append_right written
  | case2 => cases h
  | case3 tokens waiting outer written ih => simpa [heads] using ih h
  | case4 => cases h
  | case5 tokens waiting written enclosing outer ih =>
      apply (ih h).trans
      apply List.perm_iff_count.mpr
      intro symbol
      simp only [heads, List.flatten_cons, List.count_append, List.count_reverse]
      omega
  | case6 c tokens waiting outer written ih =>
      apply (ih h).trans
      apply List.perm_iff_count.mpr
      intro symbol
      simp only [heads, List.cons_append, List.count_append, List.count_cons]
      omega
  | case7 symbol tokens waiting outer written operator ih =>
      have parted := List.takeWhile_append_dropWhile (p := symbol.yieldsTo) (l := waiting)
      apply (ih h).trans
      apply List.perm_iff_count.mpr
      intro other
      have counted := congrArg (List.count other) parted
      simp only [List.count_append] at counted
      simp only [heads, List.cons_append, List.count_append, List.count_cons,
        List.count_reverse]
      omega

/-- Groups are counted as they are opened and closed, by induction on the tokens. -/
theorem balanced_of_reorder {tokens : List Token} {waiting : List Head}
    {outer : List (List Head)} {written symbols : List Head}
    (h : reorder tokens waiting outer written = some symbols)
    : Balanced outer.length tokens := by
  fun_induction reorder tokens waiting outer written with
  | case1 => rfl
  | case2 => cases h
  | case3 tokens waiting outer written ih => exact ih h
  | case4 => cases h
  | case5 tokens waiting written enclosing outer ih => exact ih h
  | case6 c tokens waiting outer written ih => exact ih h
  | case7 symbol tokens waiting outer written operator ih => exact ih h

/-- A token with the concatenation that goes before it, unless an operand is expected there. -/
def joined (expecting : Bool) (token : Token) : List Token :=
  (if !expecting && token.beginsOperand then [.head .concat] else []) ++ [token]

/-- The tokens with their concatenations, behind the end of an operand unless one is expected. -/
def continued : Bool → List Token → List Token
  | _, [] => []
  | expecting, token :: tokens =>
      joined expecting token ++ continued (!token.endsOperand) tokens

/-- Putting the concatenations in by pairs of neighbours is the same as doing so by what is expected
at each place.
-/
theorem concatenated_eq_continued (tokens : List Token)
    : concatenated tokens = continued true tokens := by
  have behind (token : Token) (tokens : List Token)
      : concatenated (token :: tokens) = token :: continued (!token.endsOperand) tokens := by
    induction tokens generalizing token with
    | nil => rfl
    | cons next tokens ih =>
        rw [concatenated, continued, joined, ih, Token.juxtaposed, Bool.not_not]
        split <;> rfl
  cases tokens with
  | nil => rfl
  | cons token tokens => exact behind token tokens

/-- The concatenations neither open nor close a group. -/
theorem balanced_of_continued {depth : Nat} {expecting : Bool} {tokens : List Token}
    (h : Balanced depth (continued expecting tokens))
    : Balanced depth tokens := by
  induction tokens generalizing depth expecting with
  | nil => exact h
  | cons token tokens ih =>
      have h : Balanced depth (token :: continued (!token.endsOperand) tokens) := by
        rw [continued, joined] at h
        split at h
        · cases depth <;> exact h
        · exact h
      cases token with
      | openGroup => exact ih h
      | closeGroup =>
          cases depth with
          | zero => exact h.elim
          | succ depth => exact ih h
      | head symbol => cases depth <;> exact ih h

/-- The head symbols of two stretches stand one behind the other. -/
theorem heads_append (front back : List Token)
    : heads (front ++ back) = heads front ++ heads back := by
  fun_induction heads front <;> simp_all [heads]

/-- What a token gives or takes is what changes between the expectations before and behind it, or
less if it stands where an operand has to begin and begins none.
-/
theorem surplus_joined (expecting : Bool) (token : Token)
    : surplus (heads (joined expecting token)) + (!token.endsOperand).toNat ≤ expecting.toNat
      ∧ (surplus (heads (joined expecting token)) + (!token.endsOperand).toNat = expecting.toNat
          → expecting = true → token.beginsOperand = true) := by
  cases token with
  | openGroup | closeGroup => cases expecting <;> decide
  | head symbol =>
      cases symbol with
      | literal c => cases expecting <;> exact ⟨Int.le_refl _, fun _ _ => rfl⟩
      | star | plus | concat | union => cases expecting <;> decide

/-- Tokens give at most the one operand that is expected, and they give it only if each operand
begins where it has to. By induction on the tokens.
-/
theorem surplus_continued (expecting : Bool) (tokens : List Token)
    : surplus (heads (continued expecting tokens)) ≤ expecting.toNat
      ∧ (surplus (heads (continued expecting tokens)) = expecting.toNat
          → Alternates expecting tokens) := by
  induction tokens generalizing expecting with
  | nil => cases expecting <;> simp [continued, heads, surplus, Alternates]
  | cons token tokens ih =>
      obtain ⟨most, alternates⟩ := ih (!token.endsOperand)
      obtain ⟨own, begins⟩ := surplus_joined expecting token
      rw [continued, heads_append, surplus_append]
      refine ⟨by omega, fun all => ⟨begins (by omega), alternates (by omega)⟩⟩

/-- Only tokens with balanced parentheses and with an operand wherever one has to be are read as a
tree.
-/
theorem wellFormed_of_ofTokens {tokens : List Token} {tree : Regex}
    (h : ofTokens (concatenated tokens) = .ok tree)
    : Balanced 0 tokens ∧ Alternates true tokens := by
  rw [concatenated_eq_continued, ofTokens_eq_ok_iff] at h
  have given : surplus (heads (continued true tokens)) = 1 := by
    rw [← surplus_polish .rightToLeft tree, surplus_of_perm (perm_of_reorder h)]
    simp
  exact ⟨balanced_of_continued (balanced_of_reorder h),
    (surplus_continued true tokens).2 given⟩

/-- The tree that is read is the one that is derived. -/
theorem ofTokens_concatenated {tokens : List Token} {tree : Regex}
    (implicit : .head .concat ∉ tokens)
    : ofTokens (concatenated tokens) = .ok tree ↔ Derives .expression tokens tree := by
  constructor
  · intro h
    obtain ⟨balanced, alternates⟩ := wellFormed_of_ofTokens h
    obtain ⟨derived, derives⟩ := derivable_expression balanced implicit alternates
    have same := h.symm.trans (ofTokens_of_derives derives)
    rwa [Except.ok.inj same]
  · exact ofTokens_of_derives

-----------------------------------------------------------------------------------------
-- Texts
-----------------------------------------------------------------------------------------

/-- The alternatives of a shorthand have no concatenation among them. -/
theorem concat_not_mem_choice (chars : List Char) : .head .concat ∉ choice chars := by
  have spread (chars : List Char)
      : .head .concat ∉ (chars.map Token.literal).intersperse (.head .union) := by
    induction chars with
    | nil => simp
    | cons c chars ih =>
        cases chars with
        | nil => simp
        | cons next chars => simpa using ih
  simp [choice, spread]

/-- No spelling is that of a concatenation. -/
theorem concat_not_mem_spelled {position : Nat} {text : List Char} {tokens : List Token}
    (h : spelled position text = .ok tokens)
    : .head .concat ∉ tokens := by
  have put {front : List Token} {result : Except ParseError (List Token)}
      {tokens : List Token} (explicit : .head .concat ∉ front)
      (h : result.map (front ++ ·) = .ok tokens)
      (rest : ∀ {more}, result = .ok more → .head .concat ∉ more)
      : .head .concat ∉ tokens := by
    obtain ⟨more, found, rfl⟩ := map_eq_ok_iff.mp h
    simp [explicit, rest found]
  fun_induction spelled position text generalizing tokens with
  | case1 =>
      obtain rfl := Except.ok.inj h
      simp
  | case2 | case3 => exact put (concat_not_mem_choice _) h ‹_›
  | case4 | case5 | case7 | case8 | case9 | case10 | case11 | case13 =>
      exact @put [_] _ _ (by simp) h ‹_›
  | case6 => cases h
  | case12 _ _ _ _ _ _ _ _ _ _ _ _ _ _ ih => exact ih h

/-- The tokens without the concatenations that are understood. -/
def explicit (tokens : List Token) : List Token :=
  tokens.filter (· ≠ .head .concat)

/-- Only concatenations are put between tokens. -/
theorem explicit_concatenated {tokens : List Token} (implicit : .head .concat ∉ tokens)
    : explicit (concatenated tokens) = tokens := by
  induction tokens with
  | nil => rfl
  | cons token tokens ih =>
      have other : token ≠ .head .concat := fun same => implicit (by simp [same])
      have implicit' : .head .concat ∉ tokens := fun mem => implicit (by simp [mem])
      have between : explicit (seam [token] tokens) = [] := by
        unfold seam
        cases tokens.head? with
        | none => rfl
        | some next =>
            dsimp only [List.getLast?_singleton]
            split <;> rfl
      have kept : explicit (token :: (seam [token] tokens ++ concatenated tokens))
          = token :: (explicit (seam [token] tokens) ++ explicit (concatenated tokens)) := by
        simp [explicit, other]
      rw [concatenated_cons, kept, between, ih implicit', List.nil_append]

/-- The tokens are missing an operand: at their beginning, at their end or between two of them. -/
def LacksOperand (tokens : List Token) : Prop :=
  (∀ first ∈ tokens.head?, first.beginsOperand = false)
  ∨ (∀ last ∈ tokens.getLast?, last.endsOperand = false)
  ∨ ∃ left right,
      [left, right] <:+: tokens ∧ left.endsOperand = false ∧ right.beginsOperand = false

/-- A stretch at the end of tokens that alternate does so as well, from what is expected where it
begins.
-/
theorem Alternates.of_append {expecting : Bool} {front back : List Token}
    (h : Alternates expecting (front ++ back))
    : ∃ expecting, Alternates expecting back := by
  induction front generalizing expecting with
  | nil => exact ⟨expecting, h⟩
  | cons token front ih => exact ih h.2

/-- In derived tokens no operand is missing, however deep in groups. -/
theorem Derives.not_lacksOperand {tokens : List Token} {tree : Regex}
    (h : Derives .expression tokens tree)
    : ¬LacksOperand tokens := by
  intro lacks
  rcases lacks with first | last | ⟨left, right, ⟨front, back, rfl⟩, ends, begins⟩
  · obtain ⟨token, rest, rfl, begins⟩ := h.begins
    exact absurd (first token rfl) (by simp [begins])
  · obtain ⟨front, token, rfl, ends⟩ := h.ends
    exact absurd (last token (by simp)) (by simp [ends])
  · obtain ⟨_, alternates⟩ := wellFormed_of_ofTokens (ofTokens_of_derives h)
    rw [List.append_assoc] at alternates
    obtain ⟨_, _, next, _⟩ := alternates.of_append
    exact absurd (next (by simp [ends])) (by simp [begins])

/-- An expression is read from a text exactly if the grammar derives the tokens of the text with
that tree; where an operand is missing there is an error.
-/
theorem parse_eq_ok_iff_derives {text : String} {tokens : List Token}
    (tokenized : tokenize text.toList = .ok tokens)
    : (∀ tree, parse text = .ok tree ↔ Derives .expression (explicit tokens) tree)
      ∧ (LacksOperand (explicit tokens) → ∃ error, parse text = .error error) := by
  have read : ∀ tree, parse text = .ok tree ↔ Derives .expression (explicit tokens) tree := by
    intro tree
    have whole : parse text = ofTokens tokens := by
      rw [parse, ofInfix, tokenized]
      rfl
    obtain ⟨raw, found, rfl⟩ := map_eq_ok_iff.mp tokenized
    have implicit := concat_not_mem_spelled found
    rw [whole, explicit_concatenated implicit, ofTokens_concatenated implicit]
  refine ⟨read, fun lacks => ?_⟩
  cases outcome : parse text with
  | error cause => exact ⟨cause, rfl⟩
  | ok tree => exact absurd lacks ((read tree).mp outcome).not_lacksOperand

/-- In `a|bc*` the repetition binds most tightly and the union least; `a(b|)*` is missing an operand
within the group.
-/
theorem derives_union_of_repetition
    : Derives .expression
        [.literal 'a', .head .union, .literal 'b', .literal 'c', .head .star]
        (.union (.literal 'a') (.concat (.literal 'b') (.star (.literal 'c'))))
      ∧ ∃ error, parse "a(b|)*" = .error error := by
  have derived := @parse_eq_ok_iff_derives "a|bc*"
    [.literal 'a', .head .union, .literal 'b', .head .concat, .literal 'c', .head .star]
    (by decide +kernel)
  have rejected := @parse_eq_ok_iff_derives "a(b|)*"
    [.literal 'a', .head .concat, .openGroup, .literal 'b', .head .union, .closeGroup,
      .head .star]
    (by decide +kernel)
  refine ⟨(derived.1 _).mp (by decide +kernel), rejected.2 (Or.inr (Or.inr ?_))⟩
  exact ⟨.head .union, .closeGroup, by decide +kernel, rfl, rfl⟩

end Munch.Regex
