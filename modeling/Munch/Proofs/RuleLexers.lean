import Mathlib.Tactic.Common
import Munch.Lexer.Basic
import Munch.Proofs.CompiledLanguage
import Munch.Proofs.MaximalMunch
import Munch.Proofs.Outcomes

/-! Lexers of rules. A lexer that is read from a text has one automaton for each rule, which accepts
the language of the rule's expression; so its tokens are told by the rules alone.
-/

namespace Munch

namespace Rule

/-- The word belongs to the language of the rule's expression. -/
def Describes (rule : Rule) (word : List Char) : Prop :=
  ∃ tree, Regex.parse rule.pattern = .ok tree ∧ Regex.Matches tree word

/-- The rule is the first of some rules that describe the word. -/
inductive First (word : List Char) : List Rule → Rule → Prop
  | here {rule : Rule} {rules : List Rule} (describes : rule.Describes word)
    : First word (rule :: rules) rule
  | later {other rule : Rule} {rules : List Rule} (fails : ¬other.Describes word)
    (first : First word rules rule)
    : First word (other :: rules) rule

/-- The lengths of the beginnings of a text that some rule describes, without the empty one. -/
def lengths (rules : List Rule) (text : List Char) : Set Nat :=
  {k | 1 ≤ k ∧ k ≤ text.length ∧ ∃ rule ∈ rules, rule.Describes (text.take k)}

/-- The text is cut into the longest lexemes that the rules describe, one after the other. Each has
the label of the first rule that describes it.
-/
inductive Munched (rules : List Rule) : List Char → List Token → Prop
  | done : Munched rules [] []
  | token {text : List Char} {length : Nat} {rule : Rule} {tokens : List Token}
    (longest : IsGreatest (lengths rules text) length)
    (first : First (text.take length) rules rule)
    (rest : Munched rules (text.drop length) tokens)
    : Munched rules text (⟨rule.label, .ofList (text.take length)⟩ :: tokens)

/-- The lexemes make up the text, and none of them is empty. -/
theorem Munched.spells {rules : List Rule} {text : List Char} {tokens : List Token}
    (h : Munched rules text tokens)
    : tokens.flatMap (·.lexeme.toList) = text ∧ ∀ token ∈ tokens, token.lexeme ≠ "" := by
  induction h with
  | done => simp
  | @token text length rule tokens longest _ _ ih =>
      obtain ⟨some, within, _⟩ := longest.1
      refine ⟨by simp [ih.1], ?_⟩
      intro token mem
      rcases List.mem_cons.mp mem with rfl | mem
      · intro empty
        have none : text.take length = [] := by simpa using congrArg String.toList empty
        rw [List.take_eq_nil_iff] at none
        rcases none with rfl | rfl
        · exact absurd some (by decide)
        · exact absurd (Nat.le_trans some within) (by decide)
      · exact ih.2 token mem

-----------------------------------------------------------------------------------------
-- Automata of rules
-----------------------------------------------------------------------------------------

/-- The rule's expression is one, and the automaton accepts what the rule describes, with its label.
-/
structure CompilesTo (rule : Rule) (dfa : Dfa) : Prop where
  parsed : ∃ tree, Regex.parse rule.pattern = .ok tree
  label : dfa.label = rule.label
  accepts_iff : ∀ word, dfa.accepts word = true ↔ rule.Describes word

/-- A rule that compiles has a tree, and the automaton is the one of the tree. -/
theorem exists_ofTree_of_compile {rule : Rule} {dfa : Dfa} (h : rule.compile = .ok dfa)
    : ∃ tree, Regex.parse rule.pattern = .ok tree ∧ Dfa.ofTree tree rule.label = dfa := by
  obtain ⟨tree, parsed, h⟩ := bind_eq_ok_iff.mp (mapError_eq_ok_iff.mp h)
  exact ⟨tree, parsed, Except.ok.inj h⟩

/-- The automaton of a rule accepts what the rule describes, and has its label. -/
theorem compilesTo_of_compile {rule : Rule} {dfa : Dfa} (h : rule.compile = .ok dfa)
    : CompilesTo rule dfa := by
  obtain ⟨tree, parsed, rfl⟩ := exists_ofTree_of_compile h
  refine ⟨⟨tree, parsed⟩, rfl, fun word => ?_⟩
  simp [Describes, parsed, Dfa.accepts_ofTree]

section

variable {automata : List Dfa} {rules : List Rule}

/-- Every rule that has an automaton has a tree. -/
theorem exists_parse_of_compilesTo (compiled : List.Forall₂ CompilesTo rules automata)
    : ∀ rule ∈ rules, ∃ tree, Regex.parse rule.pattern = .ok tree := by
  induction compiled with
  | nil => simp
  | cons own _ ih => simpa using ⟨own.parsed, ih⟩

/-- Some automaton accepts a word exactly if some rule describes it. -/
theorem exists_accepts_iff (compiled : List.Forall₂ CompilesTo rules automata)
    (word : List Char)
    : (∃ dfa ∈ automata, dfa.accepts word = true) ↔ ∃ rule ∈ rules, rule.Describes word := by
  induction compiled with
  | nil => simp
  | cons own _ ih => simp [own.accepts_iff, ih]

/-- The automata find as lexemes what the rules describe. -/
theorem lexemeLengths_eq (compiled : List.Forall₂ CompilesTo rules automata)
    (text : List Char)
    : lexemeLengths automata text = lengths rules text := by
  apply Set.ext
  intro k
  simp only [lexemeLengths, lengths, Set.mem_ofPred_eq, exists_accepts_iff compiled]

/-- A rule that describes the word is the first one when it stands in front. -/
theorem first_cons_of_describes {rule other : Rule} {word : List Char}
    (describes : rule.Describes word)
    : First word (rule :: rules) other ↔ rule = other := by
  constructor
  · intro first
    cases first with
    | here => rfl
    | later fails => exact absurd describes fails
  · intro same
    rw [← same]
    exact .here describes

/-- A rule that does not describe the word may be left out when it stands in front. -/
theorem first_cons_of_not_describes {rule other : Rule} {word : List Char}
    (fails : ¬rule.Describes word)
    : First word (rule :: rules) other ↔ First word rules other := by
  constructor
  · intro first
    cases first with
    | here describes => exact absurd describes fails
    | later _ first => exact first
  · exact .later fails

/-- The first automaton that accepts a word is the one of the first rule that describes it. -/
theorem find?_eq_some_iff (compiled : List.Forall₂ CompilesTo rules automata)
    (word : List Char) (label : String)
    : (∃ dfa, automata.find? (·.accepts word) = some dfa ∧ dfa.label = label)
      ↔ ∃ rule, First word rules rule ∧ rule.label = label := by
  induction compiled with
  | nil =>
      constructor
      · intro found
        obtain ⟨dfa, none, _⟩ := found
        cases none
      · intro found
        obtain ⟨rule, none, _⟩ := found
        cases none
  | @cons rule dfa rules automata own _ ih =>
      by_cases describes : rule.Describes word
      · have accepted := (own.accepts_iff word).mpr describes
        simp [accepted, first_cons_of_describes describes, own.label]
      · have rejected := mt (own.accepts_iff word).mp describes
        have skipped : (dfa :: automata).find? (·.accepts word)
            = automata.find? (·.accepts word) :=
          List.find?_cons_of_neg rejected
        rw [skipped, ih]
        simp only [first_cons_of_not_describes describes]

/-- Cutting by rules is cutting by their automata, by induction on the tokens. -/
theorem cuts_of_munched (compiled : List.Forall₂ CompilesTo rules automata)
    {input : List Char} {position : Nat} {tokens : List Token}
    (h : Munched rules (input.drop position) tokens) (within : position ≤ input.length)
    : Cuts automata input position (.ok tokens) := by
  generalize rest : input.drop position = text at h
  induction h generalizing position with
  | done =>
      obtain rfl : position = input.length :=
        Nat.le_antisymm within (List.drop_eq_nil_iff.mp rest)
      exact .consumed
  | @token text length rule tokens longest first _ ih =>
      subst rest
      obtain ⟨dfa, found, label⟩ := (find?_eq_some_iff compiled _ _).mpr ⟨rule, first, rfl⟩
      have bound := longest.1.2.1
      rw [List.length_drop] at bound
      rw [← lexemeLengths_eq compiled] at longest
      have onward : Cuts automata input (position + length) (.ok tokens) :=
        ih (by omega) (by rw [List.drop_drop])
      rw [← label]
      exact .token longest found onward

/-- Conversely the automata cut as the rules do, by induction on the rounds. -/
theorem munched_of_cuts (compiled : List.Forall₂ CompilesTo rules automata)
    {input : List Char} {position : Nat} {tokens : List Token}
    (h : Cuts automata input position (.ok tokens))
    : Munched rules (input.drop position) tokens := by
  generalize success : Except.ok tokens = outcome at h
  induction h generalizing tokens with
  | consumed =>
      obtain rfl := Except.ok.inj success
      rw [List.drop_length]
      exact .done
  | @token position length dfa outcome longest found _ ih =>
      cases outcome with
      | error cause => cases success
      | ok more =>
          obtain rfl := Except.ok.inj success
          obtain ⟨rule, first, label⟩ := (find?_eq_some_iff compiled _ _).mp ⟨dfa, found, rfl⟩
          rw [lexemeLengths_eq compiled] at longest
          have onward := ih rfl
          rw [← List.drop_drop] at onward
          rw [← label]
          exact .token longest first onward
  | hopeless => cases success
  | unfinished => cases success

end

end Rule

namespace Lexer

/-- A lexer that is read from a text has an automaton for each rule of the text. -/
theorem exists_rules_of_ofRuleText {text : String} {lexer : Lexer}
    (read : ofRuleText text = .ok lexer)
    : ∃ rules,
        Rule.ofText text = .ok rules
        ∧ List.Forall₂ (fun rule dfa => rule.compile = .ok dfa) rules lexer.automata := by
  obtain ⟨rules, found, read⟩ := bind_eq_ok_iff.mp read
  obtain ⟨automata, compiled, read⟩ := bind_eq_ok_iff.mp read
  obtain rfl := Except.ok.inj read
  exact ⟨rules, found, mapM_eq_ok_iff.mp compiled⟩

/-- The automata of a lexer from a text of rules belong to these rules, in order. -/
theorem compilesTo_of_ofRuleText {text : String} {lexer : Lexer}
    (read : ofRuleText text = .ok lexer)
    : ∃ rules,
        Rule.ofText text = .ok rules ∧ List.Forall₂ Rule.CompilesTo rules lexer.automata := by
  obtain ⟨rules, found, compiled⟩ := exists_rules_of_ofRuleText read
  exact ⟨rules, found, compiled.imp fun _ _ => Rule.compilesTo_of_compile⟩

/-- An input is tokenized exactly if the rules cut it into the longest lexemes. -/
theorem tokenize_eq_ok_iff {lexer : Lexer} {rules : List Rule}
    (compiled : List.Forall₂ Rule.CompilesTo rules lexer.automata) (some : rules ≠ [])
    (input : String) (tokens : List Token)
    : lexer.tokenize input = .ok tokens ↔ Rule.Munched rules input.toList tokens := by
  have whole := cuts_scan (ne_nil_of_forall₂ compiled some) input.toList
  constructor
  · intro h
    rw [← tokenize, h] at whole
    exact Rule.munched_of_cuts compiled whole
  · intro h
    exact whole.unique (Rule.cuts_of_munched compiled h (Nat.zero_le _))

/-- A lexer that is read from rules munches by these rules. It gives the tokens that they cut off
the input if that uses up the input, and an error otherwise.
-/
theorem tokenize_ofRuleText {text : String} {lexer : Lexer}
    (read : ofRuleText text = .ok lexer)
    : ∃ rules,
        Rule.ofText text = .ok rules
        ∧ (∀ rule ∈ rules, ∃ tree, Regex.parse rule.pattern = .ok tree)
        ∧ (rules ≠ []
          → ∀ input : String,
              (∀ tokens,
                lexer.tokenize input = .ok tokens ↔ Rule.Munched rules input.toList tokens)
              ∧ (∀ tokens,
                  lexer.tokenize input = .ok tokens
                  → tokens.flatMap (·.lexeme.toList) = input.toList
                    ∧ ∀ token ∈ tokens, token.lexeme ≠ "")
              ∧ ((¬∃ tokens, Rule.Munched rules input.toList tokens)
                → ∃ error, lexer.tokenize input = .error error)) := by
  obtain ⟨rules, found, compiled⟩ := compilesTo_of_ofRuleText read
  refine ⟨rules, found, Rule.exists_parse_of_compilesTo compiled, fun some input => ?_⟩
  have cut := tokenize_eq_ok_iff compiled some input
  refine ⟨cut, fun tokens h => ((cut tokens).mp h).spells, fun none => ?_⟩
  cases outcome : lexer.tokenize input with
  | error cause => exact ⟨cause, rfl⟩
  | ok tokens => exact absurd ⟨tokens, (cut tokens).mp outcome⟩ none

/-- Of two rules for `a` the first one counts, but only where the second has nothing longer. -/
theorem tokenize_overlapping_rules
    : ∃ lexer,
        ofRuleText "A a;\nAB ab|a;\n" = .ok lexer
        ∧ lexer.tokenize "aab" = .ok [⟨"A", "a"⟩, ⟨"AB", "ab"⟩] := by
  have found : Rule.ofText "A a;\nAB ab|a;\n" = .ok [⟨"A", "a"⟩, ⟨"AB", "ab|a"⟩] := by
    decide +kernel
  have short : Regex.parse "a" = .ok (.literal 'a') := by decide +kernel
  have long : Regex.parse "ab|a"
      = .ok (.union (.concat (.literal 'a') (.literal 'b')) (.literal 'a')) := by
    decide +kernel
  have read : ∃ lexer, ofRuleText "A a;\nAB ab|a;\n" = .ok lexer := by
    rw [ofRuleText, found]
    simp only [bind, Except.bind, ofRules, List.mapM_cons, List.mapM_nil, Rule.compile,
      Dfa.ofRegex, short, long]
    exact ⟨_, rfl⟩
  obtain ⟨lexer, read⟩ := read
  obtain ⟨rules, found', _, munch⟩ := tokenize_ofRuleText read
  obtain rfl := Except.ok.inj (found.symm.trans found')
  refine ⟨lexer, read, ((munch (by simp) "aab").1 _).mpr ?_⟩
  have first (word : List Char) : Rule.Describes ⟨"A", "a"⟩ word ↔ word = ['a'] := by
    simp [Rule.Describes, short]
  have second (word : List Char)
      : Rule.Describes ⟨"AB", "ab|a"⟩ word ↔ word = ['a', 'b'] ∨ word = ['a'] := by
    simp [Rule.Describes, long, Regex.matches_concat]
  have lengths (text : List Char) (k : Nat)
      : k ∈ Rule.lengths [⟨"A", "a"⟩, ⟨"AB", "ab|a"⟩] text
        ↔ 1 ≤ k ∧ k ≤ text.length ∧ (text.take k = ['a', 'b'] ∨ text.take k = ['a']) := by
    simp only [Rule.lengths, Set.mem_ofPred_eq, List.mem_cons, List.not_mem_nil, or_false,
      exists_eq_or_imp, exists_eq_left, first, second]
    tauto
  have one : IsGreatest (Rule.lengths [⟨"A", "a"⟩, ⟨"AB", "ab|a"⟩] ['a', 'a', 'b']) 1 := by
    refine ⟨(lengths _ _).mpr (by decide), fun k mem => ?_⟩
    obtain ⟨_, _, word⟩ := (lengths _ _).mp mem
    by_contra longer
    obtain ⟨n, rfl⟩ : ∃ n, k = n + 2 := ⟨k - 2, by omega⟩
    simp at word
  have two : IsGreatest (Rule.lengths [⟨"A", "a"⟩, ⟨"AB", "ab|a"⟩] ['a', 'b']) 2 :=
    ⟨(lengths _ _).mpr (by decide), fun k mem => ((lengths _ _).mp mem).2.1⟩
  have fails : ¬Rule.Describes ⟨"A", "a"⟩ ['a', 'b'] := by simp [first]
  exact .token one (.here ((first _).mpr rfl))
    (.token two (.later fails (.here ((second _).mpr (Or.inl rfl)))) .done)

end Lexer

end Munch
