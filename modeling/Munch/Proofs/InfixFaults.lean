import Munch.Proofs.InfixReading

/-! What is wrong with a text that is no expression. A quote that opens no character is found
first, then parentheses that do not match, then that there is nothing but parentheses; all that is
left is an operator without its operands. That something follows a complete expression is never the
fault: each operand that follows something comes with an operator that waits for it, so what is read
behind the first symbol takes more trees than it gives.
-/

namespace Munch.Regex

-----------------------------------------------------------------------------------------
-- Parentheses that match
-----------------------------------------------------------------------------------------

/-- No beginning of the tokens closes more groups than it opens, and all of them close as many. -/
def GroupsMatch (tokens : List Token) : Prop :=
  (∀ front, front <+: tokens → front.count .closeGroup ≤ front.count .openGroup)
  ∧ tokens.count .closeGroup = tokens.count .openGroup

/-- The beginnings of a list are the empty one and those of the rest with the head in front. -/
theorem forall_prefix_cons {α : Type} {p : List α → Prop} {a : α} {items : List α}
    : (∀ front, front <+: a :: items → p front)
      ↔ p [] ∧ ∀ front, front <+: items → p (a :: front) := by
  simp only [List.prefix_cons_iff]
  constructor
  · exact fun h => ⟨h [] (Or.inl rfl), fun front ahead => h _ (Or.inr ⟨front, rfl, ahead⟩)⟩
  · rintro ⟨none, some⟩ _ (rfl | ⟨front, rfl, ahead⟩)
    · exact none
    · exact some front ahead

/-- With some groups open already, by induction on the tokens. -/
theorem balanced_iff_counts {depth : Nat} {tokens : List Token}
    : Balanced depth tokens
      ↔ (∀ front,
            front <+: tokens → front.count .closeGroup ≤ depth + front.count .openGroup)
        ∧ tokens.count .closeGroup = depth + tokens.count .openGroup := by
  induction tokens generalizing depth with
  | nil => simp [Balanced, List.prefix_nil, eq_comm]
  | cons token tokens ih =>
      rw [forall_prefix_cons]
      cases token with
      | openGroup => simp [Balanced, ih, Nat.add_assoc, Nat.add_comm 1]
      | closeGroup =>
          cases depth with
          | zero =>
              refine iff_of_false id ?_
              rintro ⟨⟨_, ahead⟩, _⟩
              exact absurd (ahead [] List.nil_prefix) (by simp)
          | succ depth =>
              simp [Balanced, ih, Nat.succ_add]
      | head symbol => cases depth <;> simp [Balanced, ih]

/-- Going along the tokens with the groups that are open comes to the same as counting the
parentheses of every beginning.
-/
theorem balanced_iff_groupsMatch {tokens : List Token}
    : Balanced 0 tokens ↔ GroupsMatch tokens := by
  simp [balanced_iff_counts, GroupsMatch]

/-- Tokens are reordered if their groups are balanced, by induction on the tokens. -/
theorem exists_reorder_of_balanced {tokens : List Token} {waiting : List Head}
    {outer : List (List Head)} {written : List Head} (h : Balanced outer.length tokens)
    : ∃ symbols, reorder tokens waiting outer written = some symbols := by
  fun_induction reorder tokens waiting outer written with
  | case1 waiting written => exact ⟨_, rfl⟩
  | case2 => cases h
  | case3 tokens waiting outer written ih => exact ih h
  | case4 => exact h.elim
  | case5 tokens waiting written enclosing outer ih => exact ih h
  | case6 c tokens waiting outer written ih => exact ih h
  | case7 symbol tokens waiting outer written operator ih => exact ih h

/-- Tokens with matching parentheses are brought into Polish notation. -/
theorem toPolish_of_groupsMatch {tokens : List Token} (h : GroupsMatch tokens)
    : ∃ symbols, toPolish tokens = .ok symbols := by
  obtain ⟨symbols, read⟩ :=
    @exists_reorder_of_balanced tokens [] [] [] (balanced_iff_groupsMatch.mpr h)
  exact ⟨symbols, toPolish_eq_ok_iff.mpr read⟩

/-- Parentheses that do not match are the one error of the conversion. -/
theorem toPolish_of_not_groupsMatch {tokens : List Token} (h : ¬GroupsMatch tokens)
    : toPolish tokens = .error .unbalancedParenthesis := by
  unfold toPolish
  cases read : reorder tokens [] [] [] with
  | none => rfl
  | some symbols => exact absurd (balanced_iff_groupsMatch.mp (balanced_of_reorder read)) h

-----------------------------------------------------------------------------------------
-- The fold of head symbols
-----------------------------------------------------------------------------------------

open Polish (Expression Folded OperandOrder evaluateAll result_evaluateAll_cons_eq_some_iff)
open Polish.Outcome (result_andThen_eq_some_iff)

/-- A symbol accepts whatever trees it gets, if their number is right. -/
theorem exists_ofHead? {symbol : Head} {trees : List Regex} (full : trees.length = symbol.arity)
    : ∃ tree, ofHead? symbol trees = some tree := by
  cases symbol with
  | literal c =>
      obtain rfl := List.length_eq_zero_iff.mp full
      exact ⟨_, rfl⟩
  | star | plus =>
      obtain ⟨inner, rfl⟩ := List.length_eq_one_iff.mp full
      exact ⟨_, rfl⟩
  | concat | union =>
      obtain ⟨left, right, rfl⟩ := List.length_eq_two.mp full
      exact ⟨_, rfl⟩

/-- If each of some expressions has a tree, they have their trees together. By induction on the
expressions.
-/
theorem exists_evaluateAll {order : OperandOrder} {expressions : List (Expression (algebra order))}
    (each : ∀ expression ∈ expressions, ∃ tree, expression.evaluate.result = some tree)
    : ∃ trees, (evaluateAll expressions).result = some trees := by
  induction expressions with
  | nil => exact ⟨[], rfl⟩
  | cons expression expressions ih =>
      obtain ⟨tree, first⟩ := each expression List.mem_cons_self
      obtain ⟨trees, others⟩ := ih fun other mem => each other (List.mem_cons_of_mem _ mem)
      exact ⟨_, result_evaluateAll_cons_eq_some_iff.mpr ⟨tree, trees, first, others, rfl⟩⟩

/-- Every expression has a tree, by induction on the expression. -/
theorem exists_evaluate {order : OperandOrder} (expression : Expression (algebra order))
    : ∃ tree, expression.evaluate.result = some tree := by
  induction expression using Expression.operands_induction with
  | node symbol operands ih =>
      obtain ⟨trees, evaluated⟩ := exists_evaluateAll ih
      have full : ((algebra order).handed trees).length = symbol.arity := by
        have length_eq := Polish.length_of_evaluateAll evaluated
        rw [List.length_ofFn] at length_eq
        cases order with
        | leftToRight => exact length_eq
        | rightToLeft => exact List.length_reverse.trans length_eq
      obtain ⟨tree, assembled⟩ := exists_ofHead? full
      rw [Expression.evaluate_node]
      exact ⟨tree, result_andThen_eq_some_iff.mpr ⟨trees, evaluated, assembled⟩⟩

/-- Symbols are folded into a tree, or there are none, or they go on behind the notation of a tree,
or they end while some of them lack operands. None is rejected.
-/
theorem value_cases (order : OperandOrder) (symbols : List Head)
    : (∃ tree, (algebra order).value symbols = .ok tree)
      ∨ (symbols = [] ∧ (algebra order).value symbols = .error .empty)
      ∨ (∃ tree rest, rest ≠ [] ∧ symbols = polish order tree ++ rest)
      ∨ ∃ pending, 1 ≤ pending ∧ (algebra order).value symbols = .error (.incomplete pending) := by
  obtain ⟨outcome, folded⟩ := Polish.exists_folded (algebra order) symbols
  have value_eq : (algebra order).value symbols = outcome.result := by
    rw [Polish.Algebra.value, folded.fold_eq]
  rw [value_eq]
  cases folded with
  | empty => exact Or.inr (Or.inl ⟨rfl, rfl⟩)
  | whole expression accepted => exact Or.inl ⟨_, rfl⟩
  | @trailing expression rest _ _ accepted more =>
      obtain ⟨tree, evaluated⟩ := exists_evaluate expression
      exact Or.inr (Or.inr (Or.inl ⟨tree, rest, more, by rw [polish_of_evaluate _ evaluated]⟩))
  | @incomplete pending _ _ begun accepted =>
      exact Or.inr (Or.inr (Or.inr ⟨_, List.length_pos_iff.mpr begun, rfl⟩))
  | rejected complete refused =>
      obtain ⟨trees, evaluated⟩ := exists_evaluateAll fun expression _ => exists_evaluate expression
      rw [refused] at evaluated
      cases evaluated

-----------------------------------------------------------------------------------------
-- No tree is complete before the last symbol
-----------------------------------------------------------------------------------------

/-- No operand begins right behind the end of another. At first, one may begin if it is expected. -/
def Spaced : Bool → List Token → Prop
  | _, [] => True
  | expecting, token :: tokens =>
      (token.beginsOperand = true → expecting = true) ∧ Spaced (!token.endsOperand) tokens

/-- The concatenations that are understood stand wherever operands would meet. -/
theorem spaced_continued (expecting : Bool) (tokens : List Token)
    : Spaced expecting (continued expecting tokens) := by
  induction tokens generalizing expecting with
  | nil => trivial
  | cons token tokens ih =>
      rw [continued, joined]
      split
      · exact ⟨fun begins => absurd begins Bool.false_ne_true, fun _ => rfl, ih _⟩
      · rename_i apart
        exact ⟨fun begins => by simpa [begins] using apart, ih _⟩

/-- No concatenation goes before a token that is expected or does not begin an operand. -/
theorem joined_of_begins {expecting : Bool} {token : Token}
    (begins : token.beginsOperand = true → expecting = true)
    : joined expecting token = [token] := by
  rw [joined, if_neg, List.nil_append]
  intro meet
  obtain ⟨unexpected, begin⟩ := Bool.and_eq_true_iff.mp meet
  rw [begins begin] at unexpected
  cases unexpected

/-- Tokens give at most the one operand that is expected, by induction on the tokens. -/
theorem surplus_heads_le {expecting : Bool} {tokens : List Token} (h : Spaced expecting tokens)
    : surplus (heads tokens) ≤ expecting.toNat := by
  induction tokens generalizing expecting with
  | nil => cases expecting <;> decide
  | cons token tokens ih =>
      obtain ⟨begins, rest⟩ := h
      have most := ih rest
      have own := (surplus_joined expecting token).1
      rw [joined_of_begins begins] at own
      rw [← List.singleton_append, heads_append, surplus_append]
      omega

/-- The symbols are operators. -/
def Operators (symbols : List Head) : Prop :=
  ∀ symbol ∈ symbols, 1 ≤ symbol.arity

/-- Operators in reverse order are operators. -/
theorem Operators.reverse {symbols : List Head} (h : Operators symbols)
    : Operators symbols.reverse :=
  fun symbol mem => h symbol (List.mem_reverse.mp mem)

/-- Of the operators that wait, some leave for a new one, and the others stay. -/
theorem Operators.makeWay {waiting others : List Head} (h : Operators (waiting ++ others))
    (symbol : Head)
    : Operators (waiting.takeWhile symbol.yieldsTo)
      ∧ Operators (waiting.dropWhile symbol.yieldsTo ++ others) := by
  obtain ⟨own, rest⟩ := List.forall_mem_append.mp h
  refine ⟨fun other mem => own other ((List.takeWhile_sublist _).subset mem),
    List.forall_mem_append.mpr ⟨fun other mem => ?_, rest⟩⟩
  exact own other ((List.dropWhile_sublist _).subset mem)

/-- Operators take at least as many trees as they give, by induction on the symbols. -/
theorem Operators.surplus_le {symbols : List Head} (h : Operators symbols)
    : surplus symbols ≤ 0 := by
  induction symbols with
  | nil => exact Int.le_refl 0
  | cons symbol symbols ih =>
      have first := h symbol List.mem_cons_self
      have rest := ih fun other mem => h other (List.mem_cons_of_mem _ mem)
      rw [surplus_cons]
      omega

/-- No beginning of the symbols gives more trees than it takes, save perhaps all of them if nothing
has been written before.
-/
def TakesMore (started : Prop) (symbols : List Head) : Prop :=
  ∀ front back, symbols = front ++ back → back ≠ [] ∨ started → surplus front ≤ 0

/-- The empty stretch of symbols gives no tree. -/
theorem takesMore_nil (started : Prop) : TakesMore started [] := by
  intro front back parts _
  obtain ⟨rfl, _⟩ := List.append_eq_nil_iff.mp parts.symm
  exact Int.le_refl 0

/-- Symbols that are written later stand in front, and come to no more trees than they take. -/
theorem TakesMore.append_operators {started : Prop} {later operators : List Head}
    (h : TakesMore (operators ≠ [] ∨ started) later) (ops : Operators operators)
    : TakesMore started (later ++ operators) := by
  intro front back parts more
  rcases List.append_eq_append_iff.mp parts with ⟨written, rfl, rfl⟩ | ⟨rest, rfl, rfl⟩
  · have begun : written ++ back ≠ [] ∨ started :=
      more.imp_left fun some => List.append_ne_nil_of_right_ne_nil written some
    have others := h later [] (by simp) (Or.inr begun)
    have own : Operators written := fun symbol mem => ops symbol (List.mem_append_left _ mem)
    have := own.surplus_le
    rw [surplus_append]
    omega
  · refine h front rest rfl ?_
    by_cases none : rest = []
    · subst none
      exact Or.inr more
    · exact Or.inl none

/-- An operand that is not the first one needs an operator before it among those written later. -/
theorem TakesMore.append_literal {started : Prop} {later : List Head} {c : Char}
    (h : TakesMore True later) (taken : started → surplus later < 0)
    : TakesMore started (later ++ [.literal c]) := by
  intro front back parts more
  rcases List.append_eq_append_iff.mp parts with ⟨written, rfl, own⟩ | ⟨rest, rfl, rfl⟩
  · cases written with
    | nil => simpa using h later [] (by simp) (Or.inr trivial)
    | cons symbol written =>
        obtain ⟨rfl, ending⟩ := List.cons.inj own
        obtain ⟨rfl, rfl⟩ := List.append_eq_nil_iff.mp ending.symm
        have waits := taken (more.resolve_left (by simp))
        have gives : surplus [.literal c] = 1 := rfl
        rw [surplus_append, gives]
        omega
  · exact h front rest rfl (Or.inr trivial)

/-- If the beginnings take more than they give under one assumption, they do so under any stronger
one.
-/
theorem TakesMore.mono {started begun : Prop} {symbols : List Head}
    (h : TakesMore begun symbols) (implies : started → begun)
    : TakesMore started symbols :=
  fun front back parts more => h front back parts (more.imp_right implies)

/-- The symbols are what has been written, with symbols in front that take more than they give. -/
def Extends (written symbols : List Head) : Prop :=
  ∃ later, symbols = later ++ written ∧ TakesMore (written ≠ []) later

/-- Operators that have been written may be counted among what was written after them, as they take
at least as much as they give.
-/
theorem Extends.of_operators {operators written symbols : List Head}
    (h : Extends (operators ++ written) symbols) (ops : Operators operators)
    : Extends written symbols := by
  obtain ⟨later, rfl, takes⟩ := h
  refine ⟨later ++ operators, by simp, (takes.mono ?_).append_operators ops⟩
  rintro (some | some)
  · exact List.append_ne_nil_of_left_ne_nil some written
  · exact List.append_ne_nil_of_right_ne_nil operators some

/-- What is written later comes to what the tokens that are left and the waiting operators give. -/
theorem surplus_later {tokens : List Token} {waiting : List Head} {outer : List (List Head)}
    {written later : List Head}
    (h : reorder tokens waiting outer written = some (later ++ written))
    : surplus later = surplus (heads tokens) + surplus (waiting ++ outer.flatten) := by
  have kept := surplus_of_perm (perm_of_reorder h)
  simp only [surplus_append] at kept ⊢
  omega

/-- Every operator takes an operand. -/
theorem one_le_arity {symbol : Head} (operator : ∀ c, symbol ≠ .literal c)
    : 1 ≤ symbol.arity := by
  cases symbol with
  | literal c => exact absurd rfl (operator c)
  | star | plus | concat | union => decide

/-- An operator behind which an operand has to begin takes two of them. -/
theorem surplus_cons_lt {symbol : Head} {others : List Head}
    (expecting : (Token.head symbol).endsOperand = false) (ops : Operators others)
    : surplus (symbol :: others) < 0 := by
  have most := ops.surplus_le
  rw [surplus_cons]
  cases symbol with
  | literal c | star | plus => cases expecting
  | concat | union =>
      simp only [Head.arity]
      omega

/-- Whatever the tokens, what is written later takes more than it gives, by induction on the tokens:
if an operand is expected and something has been written, then a binary operator is waiting for that
operand.
-/
theorem extends_of_reorder {expecting : Bool} {tokens : List Token} {waiting : List Head}
    {outer : List (List Head)} {written symbols : List Head}
    (h : reorder tokens waiting outer written = some symbols) (spaced : Spaced expecting tokens)
    (operators : Operators (waiting ++ outer.flatten))
    (due : expecting = true → written ≠ [] → surplus (waiting ++ outer.flatten) < 0)
    : Extends written symbols := by
  fun_induction reorder tokens waiting outer written generalizing expecting with
  | case1 waiting written =>
      obtain rfl := Option.some.inj h
      rw [List.flatten_nil, List.append_nil] at operators
      exact Extends.of_operators ⟨[], rfl, takesMore_nil _⟩ operators.reverse
  | case2 => cases h
  | case3 tokens waiting outer written ih =>
      obtain ⟨begins, rest⟩ := spaced
      exact ih h rest operators fun _ => due (begins rfl)
  | case4 => cases h
  | case5 tokens waiting written enclosing outer ih =>
      rw [List.flatten_cons] at operators
      obtain ⟨own, others⟩ := List.forall_mem_append.mp operators
      have ended := ih h spaced.2 others fun expected => absurd expected Bool.false_ne_true
      exact ended.of_operators (Operators.reverse own)
  | case6 c tokens waiting outer written ih =>
      obtain ⟨begins, rest⟩ := spaced
      obtain ⟨later, rfl, takes⟩ :=
        ih h rest operators fun expected => absurd expected Bool.false_ne_true
      have taken (some : written ≠ []) : surplus later < 0 := by
        have most : surplus (heads tokens) ≤ 0 := surplus_heads_le rest
        have waits := due (begins rfl) some
        rw [surplus_later h]
        omega
      exact ⟨later ++ [.literal c], by simp, (takes.mono (by simp)).append_literal taken⟩
  | case7 symbol tokens waiting outer written operator ih =>
      obtain ⟨leaving, staying⟩ := operators.makeWay symbol
      have waiting' : Operators (symbol :: waiting.dropWhile symbol.yieldsTo ++ outer.flatten) :=
        List.forall_mem_cons.mpr ⟨one_le_arity operator, staying⟩
      refine (ih h spaced.2 waiting' fun expecting _ => ?_).of_operators leaving.reverse
      exact surplus_cons_lt (by simpa using expecting) staying

/-- The symbols of any tokens end before a tree is complete, or with it. -/
theorem takesMore_of_toPolish {tokens : List Token} {symbols : List Head}
    (h : toPolish (concatenated tokens) = .ok symbols)
    : TakesMore False symbols := by
  rw [toPolish_eq_ok_iff, concatenated_eq_continued] at h
  obtain ⟨later, rfl, takes⟩ :=
    extends_of_reorder h (spaced_continued true tokens)
      (fun _ mem => absurd mem List.not_mem_nil) (fun _ none => absurd rfl none)
  simpa using takes

-----------------------------------------------------------------------------------------
-- What is wrong with a text
-----------------------------------------------------------------------------------------

/-- The tokens are nothing but parentheses. -/
def OnlyGroups (tokens : List Token) : Prop :=
  ∀ token ∈ tokens, token = .openGroup ∨ token = .closeGroup

/-- Tokens without head symbols are nothing but parentheses, by induction on the tokens. -/
theorem heads_eq_nil_iff {tokens : List Token} : heads tokens = [] ↔ OnlyGroups tokens := by
  fun_induction heads tokens with
  | case1 => simp [OnlyGroups]
  | case2 symbol tokens ih => simp [OnlyGroups]
  | case3 token tokens other ih =>
      have group : token = .openGroup ∨ token = .closeGroup := by
        cases token with
        | openGroup => exact Or.inl rfl
        | closeGroup => exact Or.inr rfl
        | head symbol => exact absurd rfl (other symbol)
      simpa [OnlyGroups, group] using ih

/-- All symbols of the tokens are reordered, and only they. -/
theorem toPolish_eq_nil_iff {tokens : List Token} {symbols : List Head}
    (h : toPolish tokens = .ok symbols)
    : symbols = [] ↔ OnlyGroups tokens := by
  have kept : symbols.Perm (heads tokens) := by
    simpa using perm_of_reorder (toPolish_eq_ok_iff.mp h)
  rw [← heads_eq_nil_iff, ← List.length_eq_zero_iff, ← List.length_eq_zero_iff, kept.length_eq]

/-- The symbols of any tokens are folded into a tree unless there are none or operands are missing:
behind a complete tree there is nothing, as the tree gives one more than it takes.
-/
theorem ofPolish_cases {tokens : List Token} {symbols : List Head}
    (h : toPolish (concatenated tokens) = .ok symbols)
    : (symbols = [] ∧ ofPolish .rightToLeft symbols = .error (.malformed .empty))
      ∨ (symbols ≠ []
          ∧ ((∃ tree, ofPolish .rightToLeft symbols = .ok tree)
            ∨ ∃ pending, 1 ≤ pending
                ∧ ofPolish .rightToLeft symbols = .error (.malformed (.incomplete pending)))) := by
  unfold ofPolish
  rcases value_cases .rightToLeft symbols with
    ⟨tree, whole⟩ | ⟨none, empty⟩ | ⟨tree, rest, more, rfl⟩ | ⟨pending, atLeast, incomplete⟩
  · refine Or.inr ⟨?_, Or.inl ⟨tree, by rw [whole]; rfl⟩⟩
    rintro rfl
    cases whole
  · exact Or.inl ⟨none, by rw [empty]; rfl⟩
  · have few := takesMore_of_toPolish h (polish .rightToLeft tree) rest rfl (Or.inl more)
    rw [surplus_polish] at few
    exact absurd few (by decide)
  · refine Or.inr ⟨?_, Or.inr ⟨pending, atLeast, by rw [incomplete]; rfl⟩⟩
    rintro rfl
    cases incomplete

/-- Every sequence of tokens is read as a tree unless its parentheses do not match, or there is
nothing else, or operands are missing.
-/
theorem ofTokens_cases (tokens : List Token)
    : (¬GroupsMatch (concatenated tokens)
        ∧ ofTokens (concatenated tokens) = .error .unbalancedParenthesis)
      ∨ (GroupsMatch (concatenated tokens) ∧ OnlyGroups (concatenated tokens)
        ∧ ofTokens (concatenated tokens) = .error (.malformed .empty))
      ∨ (GroupsMatch (concatenated tokens) ∧ ¬OnlyGroups (concatenated tokens)
        ∧ ((∃ tree, ofTokens (concatenated tokens) = .ok tree)
          ∨ ∃ pending, 1 ≤ pending
              ∧ ofTokens (concatenated tokens) = .error (.malformed (.incomplete pending)))) := by
  by_cases groups : GroupsMatch (concatenated tokens)
  · obtain ⟨symbols, reordered⟩ := toPolish_of_groupsMatch groups
    have folded : ofTokens (concatenated tokens) = ofPolish .rightToLeft symbols := by
      rw [ofTokens, reordered]
      rfl
    rw [folded, ← toPolish_eq_nil_iff reordered]
    rcases ofPolish_cases reordered with ⟨none, failed⟩ | ⟨some, outcome⟩
    · exact Or.inr (Or.inl ⟨groups, none, failed⟩)
    · exact Or.inr (Or.inr ⟨groups, some, outcome⟩)
  · refine Or.inl ⟨groups, ?_⟩
    rw [ofTokens, toPolish_of_not_groupsMatch groups]
    rfl

/-- Only a quote keeps a text from being cut into tokens, by induction on the text. -/
theorem spelled_eq_error {position : Nat} {text : List Char} {cause : ParseError}
    (h : spelled position text = .error cause)
    : ∃ place, cause = .unterminatedLiteral place := by
  fun_induction spelled position text with
  | case1 => cases h
  | case2 | case3 | case4 | case5 | case7 | case8 | case9 | case10 | case11 | case13 =>
      rename_i ih
      exact ih (map_eq_error_iff.mp h)
  | case6 position => exact ⟨position, (Except.error.inj h).symm⟩
  | case12 _ _ _ _ _ _ _ _ _ _ _ _ _ _ ih => exact ih h

/-- The one error of cutting a text into tokens is a quote that opens no quoted character. -/
theorem tokenize_eq_error {text : List Char} {cause : ParseError}
    (h : tokenize text = .error cause)
    : ∃ place, cause = .unterminatedLiteral place :=
  spelled_eq_error (map_eq_error_iff.mp h)

/-- Exactly a quote that opens no character keeps a text from being cut into tokens. Of the other
texts, exactly those are called unbalanced whose parentheses do not match, and exactly those empty
that are nothing but matching parentheses. All other faults are missing operands; nothing is ever
left over, rejected or unknown.
-/
theorem parse_faults (text : String)
    : ((∃ position, parse text = .error (.unterminatedLiteral position))
        ↔ ∃ cause, tokenize text.toList = .error cause)
      ∧ (∀ tokens,
          tokenize text.toList = .ok tokens
          → (parse text = .error .unbalancedParenthesis ↔ ¬GroupsMatch tokens)
            ∧ (GroupsMatch tokens
                → (parse text = .error (.malformed .empty) ↔ OnlyGroups tokens)
                  ∧ (¬OnlyGroups tokens
                      → ∀ error,
                          parse text = .error error
                          → ∃ pending, 1 ≤ pending ∧ error = .malformed (.incomplete pending))))
      ∧ (∀ remaining, parse text ≠ .error (.malformed (.trailing remaining)))
      ∧ parse text ≠ .error (.malformed .rejected)
      ∧ ∀ word, parse text ≠ .error (.unknownToken word) := by
  cases tokenized : tokenize text.toList with
  | error cause =>
      obtain ⟨place, rfl⟩ := tokenize_eq_error tokenized
      have failed : parse text = .error (.unterminatedLiteral place) := by
        rw [parse, ofInfix, tokenized]
        rfl
      simp [failed]
  | ok tokens =>
      have read : parse text = ofTokens tokens := by
        rw [parse, ofInfix, tokenized]
        rfl
      obtain ⟨raw, _, rfl⟩ := map_eq_ok_iff.mp tokenized
      rw [read]
      rcases ofTokens_cases raw with
        ⟨loose, failed⟩ | ⟨groups, only, failed⟩ | ⟨groups, some, outcome⟩
      · simp [failed, loose]
      · simp [failed, groups, only]
      · rcases outcome with ⟨tree, whole⟩ | ⟨pending, atLeast, failed⟩
        · simp [whole, groups, some]
        · simp [failed, groups, some, atLeast]

/-- An empty group is no operand, and only without any symbol is it called empty. -/
example : parse "(())" = .error (.malformed .empty)
    ∧ parse "a(())" = .error (.malformed (.incomplete 1)) := by
  decide +kernel

end Munch.Regex
