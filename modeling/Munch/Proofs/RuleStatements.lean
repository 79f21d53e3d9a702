import Mathlib.Data.List.TakeDrop
import Mathlib.Data.List.TakeWhile
import Munch.Lexer.Basic
import Munch.Proofs.Outcomes

/-! Texts of token rules. A text falls into its statements and a tail in exactly one way. Rules that
were written are found again, whatever white space stands before them and whatever stands behind the
last; of several faults a statement without a label counts first, wherever it stands.
-/

namespace Munch

open Text

namespace Rule

-----------------------------------------------------------------------------------------
-- Texts and their statements
-----------------------------------------------------------------------------------------

/-- What ends a statement: a semicolon directly before a line feed. -/
def statementEnd : List Char := [';', '\n']

/-- No statement ends in the text. -/
def Unended (text : List Char) : Prop :=
  ¬statementEnd <:+: text

instance (text : List Char) : Decidable (Unended text) :=
  inferInstanceAs (Decidable (¬_))

/-- Statements with their ends behind them, and a tail that is no statement. -/
def endedText (parts : List (List Char)) (tail : List Char) : List Char :=
  parts.flatMap (· ++ statementEnd) ++ tail

/-- The text is made of the statements and the tail. -/
structure SplitsInto (text : List Char) (parts : List (List Char)) (tail : List Char)
    : Prop where
  whole : text = endedText parts tail
  unended : ∀ part ∈ parts, Unended part
  rest : Unended tail

/-- The first statement stands with its end before the others. -/
theorem endedText_cons (part : List Char) (parts : List (List Char)) (tail : List Char)
    : endedText (part :: parts) tail = part ++ statementEnd ++ endedText parts tail := by
  simp [endedText]

/-- No statement ends in a text if none ends at its front and none behind that. -/
theorem unended_cons {c : Char} {text : List Char}
    : Unended (c :: text) ↔ (c = ';' → text.head? ≠ some '\n') ∧ Unended text := by
  rw [Unended, List.infix_cons_iff, not_or, statementEnd, List.cons_prefix_cons, not_and]
  refine and_congr_left fun _ => imp_congr eq_comm (not_congr ?_)
  cases text <;> simp [eq_comm]

/-- A character at which no statement ends belongs to the first statement, if there is one. -/
theorem statements_cons {c : Char} {rest : List Char}
    (continues : c = ';' → rest.head? ≠ some '\n')
    : statements (c :: rest)
      = match statements rest with
        | [] => []
        | first :: more => (c :: first) :: more := by
  apply statements.eq_3
  rintro more rfl rfl
  exact continues rfl rfl

/-- A text in which no statement ends has none, by induction on the text. -/
theorem statements_of_unended {text : List Char} (h : Unended text) : statements text = [] := by
  induction text with
  | nil => rfl
  | cons c text ih =>
      obtain ⟨continues, rest⟩ := unended_cons.mp h
      rw [statements_cons continues, ih rest]

/-- The first statement goes up to the first end, even if a semicolon stands before that. By
induction on the statement.
-/
theorem statements_append {part : List Char} (h : Unended part) (rest : List Char)
    : statements (part ++ statementEnd ++ rest) = part :: statements rest := by
  induction part with
  | nil => rfl
  | cons c part ih =>
      obtain ⟨continues, others⟩ := unended_cons.mp h
      have goesOn : c = ';' → (part ++ statementEnd ++ rest).head? ≠ some '\n' := by
        cases part with
        | nil => simp [statementEnd]
        | cons d part => exact continues
      rw [List.cons_append, List.cons_append, statements_cons goesOn, ih others]

/-- Statements with their ends are found as they are, and the tail is dropped. -/
theorem statements_endedText {parts : List (List Char)} {tail : List Char}
    (unended : ∀ part ∈ parts, Unended part) (last : Unended tail)
    : statements (endedText parts tail) = parts := by
  induction parts with
  | nil => exact statements_of_unended last
  | cons part parts ih =>
      obtain ⟨first, others⟩ := List.forall_mem_cons.mp unended
      rw [endedText_cons, statements_append first, ih others]

/-- By induction on the text: another character before it belongs to the first statement, or to the
tail where there is none, unless it ends an empty statement.
-/
theorem exists_splitsInto_statements (text : List Char)
    : ∃ tail, SplitsInto text (statements text) tail := by
  fun_induction statements text with
  | case1 => exact ⟨[], rfl, by simp, by decide⟩
  | case2 rest ih =>
      obtain ⟨tail, whole, unended, last⟩ := ih
      refine ⟨tail, ?_, List.forall_mem_cons.mpr ⟨by decide, unended⟩, last⟩
      rw [endedText_cons, ← whole]
      rfl
  | case3 c rest other none ih =>
      obtain ⟨tail, whole, _, last⟩ := ih
      obtain rfl : rest = tail := by rw [whole, none]; rfl
      refine ⟨c :: rest, rfl, by simp, unended_cons.mpr ⟨?_, last⟩⟩
      rintro rfl next
      obtain ⟨more, rfl⟩ := List.head?_eq_some_iff.mp next
      exact other more rfl rfl
  | case4 c rest other first more found ih =>
      obtain ⟨tail, whole, unended, last⟩ := ih
      rw [found] at whole unended
      obtain ⟨here, others⟩ := List.forall_mem_cons.mp unended
      refine ⟨tail, ?_, List.forall_mem_cons.mpr ⟨unended_cons.mpr ⟨?_, here⟩, others⟩, last⟩
      · rw [whole, endedText_cons, endedText_cons]
        rfl
      · rintro rfl next
        obtain ⟨begun, rfl⟩ := List.head?_eq_some_iff.mp next
        exact other _ rfl (whole.trans (endedText_cons _ _ _))

/-- A text has one split into statements and a tail. -/
theorem existsUnique_splitsInto (text : List Char)
    : ∃! split : List (List Char) × List Char, SplitsInto text split.1 split.2 := by
  obtain ⟨tail, split⟩ := exists_splitsInto_statements text
  refine ⟨(statements text, tail), split, ?_⟩
  rintro ⟨parts, other⟩ ⟨whole, unended, last⟩
  obtain rfl : statements text = parts := by rw [whole, statements_endedText unended last]
  have same := split.whole.symm.trans whole
  exact congrArg _ (List.append_cancel_left same).symm

-----------------------------------------------------------------------------------------
-- Statements and their rules
-----------------------------------------------------------------------------------------

/-- The rule as a statement. -/
def statement (rule : Rule) : List Char :=
  rule.label.toList ++ ' ' :: rule.pattern.toList

/-- The rule can be told from its statement: nothing cuts its label off early, and no statement ends
within.
-/
structure Writable (rule : Rule) : Prop where
  named : rule.label ≠ ""
  dark : ∀ c ∈ rule.label.toList.head?, isWhite c = false
  single : ' ' ∉ rule.label.toList
  unended : Unended rule.statement

/-- A statement is cut at its first space, behind the white space at its front. -/
theorem ofStatement_eq (text : List Char)
    : ofStatement text
      = match (trimStart text).dropWhile (· ≠ ' ') with
        | _ :: pattern =>
            .ok ⟨.ofList ((trimStart text).takeWhile (· ≠ ' ')), .ofList pattern⟩
        | [] => .error (.missingLabel (.ofList (trimStart text))) := by
  simp only [ofStatement, List.span_eq_takeWhile_dropWhile]
  cases (trimStart text).dropWhile (· ≠ ' ') <;> rfl

/-- White space before a statement is no part of it, and its label is read up to the first space. -/
theorem ofStatement_statement {gap : List Char} {rule : Rule} (white : ∀ c ∈ gap, isWhite c = true)
    (writable : rule.Writable)
    : ofStatement (gap ++ rule.statement) = .ok rule := by
  obtain ⟨named, dark, single, _⟩ := writable
  obtain ⟨c, label, split⟩ := List.exists_cons_of_ne_nil (mt String.toList_eq_nil_iff.mp named)
  have trimmed : trimStart (gap ++ rule.statement) = rule.statement := by
    rw [trimStart, List.dropWhile_append_of_pos white, statement, split, List.cons_append,
      List.dropWhile_cons_of_neg (by simp [dark c (by simp [split])])]
  have kept : ∀ c ∈ rule.label.toList, decide (c ≠ ' ') = true := fun c mem =>
    decide_eq_true fun same => single (same ▸ mem)
  rw [ofStatement_eq, trimmed, statement, List.dropWhile_append_of_pos kept,
    List.takeWhile_append_of_pos kept]
  simp

/-- A statement has a rule exactly if there is a space behind the white space at its front. -/
theorem exists_ofStatement {text : List Char} (space : ' ' ∈ trimStart text)
    : ∃ rule, ofStatement text = .ok rule := by
  rw [ofStatement_eq]
  split
  · exact ⟨_, rfl⟩
  · rename_i none
    have kept := List.dropWhile_eq_nil_iff.mp none ' ' space
    exact absurd rfl (of_decide_eq_true kept)

/-- Without a space behind the white space at its front, a statement has no label, and the error
quotes what is there.
-/
theorem ofStatement_of_not_mem {text : List Char} (noSpace : ' ' ∉ trimStart text)
    : ofStatement text = .error (.missingLabel (.ofList (trimStart text))) := by
  have none : (trimStart text).dropWhile (· ≠ ' ') = [] := by
    rw [List.dropWhile_eq_nil_iff]
    exact fun c mem => decide_eq_true fun same => noSpace (same ▸ mem)
  rw [ofStatement_eq, none]

-----------------------------------------------------------------------------------------
-- Texts and their rules
-----------------------------------------------------------------------------------------

/-- Rules as statements, each with the white space that stands before it. -/
def written (entries : List (List Char × Rule)) (tail : List Char) : List Char :=
  endedText (entries.map fun entry => entry.1 ++ entry.2.statement) tail

/-- White space at the front ends no statement, as it has no semicolon. -/
theorem unended_append {gap text : List Char} (white : ∀ c ∈ gap, isWhite c = true)
    (h : Unended text)
    : Unended (gap ++ text) := by
  induction gap with
  | nil => exact h
  | cons c gap ih =>
      obtain ⟨first, others⟩ := List.forall_mem_cons.mp white
      refine unended_cons.mpr ⟨?_, ih others⟩
      rintro rfl
      exact absurd first (by decide)

/-- The rules are found again, by induction on them. -/
theorem ofText_written {entries : List (List Char × Rule)} {tail : List Char}
    (white : ∀ entry ∈ entries, ∀ c ∈ entry.1, isWhite c = true)
    (writable : ∀ entry ∈ entries, entry.2.Writable) (last : Unended tail)
    : ofText (.ofList (written entries tail)) = .ok (entries.map Prod.snd) := by
  have unended : ∀ part ∈ entries.map (fun entry => entry.1 ++ entry.2.statement),
      Unended part := by
    rw [List.forall_mem_map]
    exact fun entry mem => unended_append (white entry mem) (writable entry mem).unended
  rw [ofText, String.toList_ofList, written, statements_endedText unended last, mapM_eq_ok_iff,
    List.forall₂_map_left_iff, List.forall₂_map_right_iff, List.forall₂_same]
  exact fun entry mem => ofStatement_statement (white entry mem) (writable entry mem)

/-- A rule compiles exactly if its expression has an automaton. -/
theorem compile_eq_ok_iff {rule : Rule} {dfa : Dfa}
    : rule.compile = .ok dfa ↔ Dfa.ofRegex rule.pattern rule.label = .ok dfa :=
  mapError_eq_ok_iff

/-- An error of a rule is the error of its expression, with the label of the rule. -/
theorem compile_eq_error_iff {rule : Rule} {error : Error}
    : rule.compile = .error error
      ↔ ∃ cause,
          Dfa.ofRegex rule.pattern rule.label = .error cause
          ∧ .badPattern rule.label cause = error :=
  mapError_eq_error_iff

/-- The outcome is what comes of the rules one by one: the automata of all of them in order, or the
error of the first one that has no automaton.
-/
def CompiledInOrder (rules : List Rule) (outcome : Except Error Lexer) : Prop :=
  (∀ lexer,
      outcome = .ok lexer
      ↔ List.Forall₂ (fun rule dfa => Dfa.ofRegex rule.pattern rule.label = .ok dfa) rules
          lexer.automata)
  ∧ ∀ error,
      outcome = .error error
      ↔ ∃ front rule back cause,
          rules = front ++ rule :: back
          ∧ (∀ earlier ∈ front, ∃ dfa, Dfa.ofRegex earlier.pattern earlier.label = .ok dfa)
          ∧ Dfa.ofRegex rule.pattern rule.label = .error cause
          ∧ error = .badPattern rule.label cause

/-- The lexer of some rules comes of them one by one, by induction on the rules. -/
theorem compiledInOrder_ofRules (rules : List Rule)
    : CompiledInOrder rules (Lexer.ofRules rules) := by
  constructor
  · intro lexer
    simp only [Lexer.ofRules, bind_eq_ok_iff, mapM_eq_ok_iff, compile_eq_ok_iff]
    constructor
    · rintro ⟨automata, compiled, same⟩
      obtain rfl := Except.ok.inj same
      exact compiled
    · exact fun compiled => ⟨_, compiled, rfl⟩
  · intro error
    have whole : Lexer.ofRules rules = .error error ↔ rules.mapM compile = .error error := by
      rw [Lexer.ofRules, bind_eq_error_iff]
      constructor
      · rintro (failed | ⟨_, _, impossible⟩)
        · exact failed
        · cases impossible
      · exact Or.inl
    rw [whole, mapM_eq_error_iff]
    simp only [compile_eq_ok_iff, compile_eq_error_iff]
    constructor
    · rintro ⟨front, rule, back, same, earlier, cause, failed, rfl⟩
      exact ⟨front, rule, back, cause, same, earlier, failed, rfl⟩
    · rintro ⟨front, rule, back, cause, same, earlier, failed, rfl⟩
      exact ⟨front, rule, back, same, earlier, cause, failed, rfl⟩

end Rule

namespace Lexer

open Rule

/-- A text of written rules is read as the rules, whatever white space stands before each of them.
-/
theorem ofRuleText_written {entries : List (List Char × Rule)} {tail : List Char}
    (white : ∀ entry ∈ entries, ∀ c ∈ entry.1, isWhite c = true)
    (writable : ∀ entry ∈ entries, entry.2.Writable) (last : Unended tail)
    : ofRuleText (.ofList (written entries tail)) = ofRules (entries.map Prod.snd) := by
  rw [ofRuleText, ofText_written white writable last]
  rfl

/-- A statement without a label is found before any expression is read. -/
theorem ofRuleText_of_unlabelled {text : String} {front back : List (List Char)}
    {part tail : List Char} (split : SplitsInto text.toList (front ++ part :: back) tail)
    (labelled : ∀ earlier ∈ front, ' ' ∈ trimStart earlier) (unlabelled : ' ' ∉ trimStart part)
    : ofRuleText text = .error (.missingLabel (.ofList (trimStart part))) := by
  refine bind_eq_error_iff.mpr (Or.inl ?_)
  rw [ofText, split.whole, statements_endedText split.unended split.rest, mapM_eq_error_iff]
  exact ⟨front, part, back, rfl, fun earlier mem => exists_ofStatement (labelled earlier mem),
    ofStatement_of_not_mem unlabelled⟩

/-- Rules that were written, with white space before them and a tail behind them, are compiled one
by one as if they were given apart. In whatever text, of which there is one split, the first
statement without a space behind its leading white space is the error, whatever the rules before it
are.
-/
theorem ofRuleText_statements
    : (∀ (entries : List (List Char × Rule)) (tail : List Char),
        (∀ entry ∈ entries, (∀ c ∈ entry.1, isWhite c = true) ∧ entry.2.Writable)
        → Unended tail
        → ofRuleText (.ofList (written entries tail)) = ofRules (entries.map Prod.snd)
          ∧ CompiledInOrder (entries.map Prod.snd) (ofRuleText (.ofList (written entries tail))))
      ∧ ∀ text : String,
          (∃! split : List (List Char) × List Char, SplitsInto text.toList split.1 split.2)
          ∧ ∀ front part back tail,
              SplitsInto text.toList (front ++ part :: back) tail
              → (∀ earlier ∈ front, ' ' ∈ trimStart earlier)
              → ' ' ∉ trimStart part
              → ofRuleText text = .error (.missingLabel (.ofList (trimStart part))) := by
  constructor
  · intro entries tail each last
    have read : ofRuleText (.ofList (written entries tail)) = ofRules (entries.map Prod.snd) :=
      ofRuleText_written (fun entry mem => (each entry mem).1) (fun entry mem => (each entry mem).2)
        last
    exact ⟨read, read ▸ compiledInOrder_ofRules _⟩
  · intro text
    refine ⟨existsUnique_splitsInto text.toList, fun front part back tail split => ?_⟩
    exact ofRuleText_of_unlabelled split

/-- The first expression ends with a semicolon, the second is none, and what follows has no end. In
the other text the rule with the bad expression comes first, but a label is missing later.
-/
theorem ofRuleText_semicolons
    : ofRuleText "\n\tA a;;\n B (;\n\nC c;" = .error (.badPattern "B" .unbalancedParenthesis)
      ∧ ofRuleText "A (;\n\n B;\nC c;\n" = .error (.missingLabel "B") := by
  obtain ⟨written, unlabelled⟩ := ofRuleText_statements
  constructor
  · have tree : Regex.parse "a;" = .ok (.concat (.literal 'a') (.literal ';')) := by
      decide +kernel
    have none : Regex.parse "(" = .error .unbalancedParenthesis := by decide +kernel
    have first : Writable ⟨"A", "a;"⟩ := by
      refine ⟨by decide, ?_, by decide, by decide⟩
      rintro c ⟨⟩
      decide
    have second : Writable ⟨"B", "("⟩ := by
      refine ⟨by decide, ?_, by decide, by decide⟩
      rintro c ⟨⟩
      decide
    have gap : ∀ c ∈ "\n\t".toList, isWhite c = true := List.all_eq_true.mp (by decide)
    have space : ∀ c ∈ " ".toList, isWhite c = true := List.all_eq_true.mp (by decide)
    have whole := written [("\n\t".toList, ⟨"A", "a;"⟩), (" ".toList, ⟨"B", "("⟩)]
      "\nC c;".toList
      (List.forall_mem_cons.mpr ⟨⟨gap, first⟩, List.forall_mem_singleton.mpr ⟨space, second⟩⟩)
      (by decide)
    refine (whole.2.2 _).mpr
      ⟨[⟨"A", "a;"⟩], ⟨"B", "("⟩, [], .unbalancedParenthesis, rfl, ?_, ?_, rfl⟩
    · exact List.forall_mem_singleton.mpr ⟨_, by rw [Dfa.ofRegex, tree]; rfl⟩
    · rw [Dfa.ofRegex, none]
      rfl
  · exact (unlabelled "A (;\n\n B;\nC c;\n").2 ["A (".toList] "\n B".toList ["C c".toList] []
      ⟨by decide, by decide, by decide⟩ (by decide) (by decide)

end Lexer

end Munch
