import Munch.Proofs.CompiledSinks
import Munch.Proofs.RuleLexers
import Munch.Proofs.ScanRounds

/-! Where scans by rules fail. Behind the tokens that were cut off no rule describes a beginning of
the rest. If the rest begins some word of a rule, the end of the input came too early; otherwise the
error names the first character behind which no word of any rule goes on, since each automaton drops
out exactly when its language has no such word left.
-/

namespace Munch

namespace Rule

-----------------------------------------------------------------------------------------
-- The reference
-----------------------------------------------------------------------------------------

/-- Some word that the rule describes begins with the text. -/
def Begins (rule : Rule) (text : List Char) : Prop :=
  ∃ more, rule.Describes (text ++ more)

/-- The lengths of the beginnings of a text with which some word of a rule begins. -/
def hopefulLengths (rules : List Rule) (text : List Char) : Set Nat :=
  {k | k ≤ text.length ∧ ∃ rule ∈ rules, rule.Begins (text.take k)}

/-- The rules cut tokens off a text, each of them the longest, and leave the rest. -/
inductive CutsOff (rules : List Rule) : List Char → List Token → List Char → Prop
  | nothing (text : List Char) : CutsOff rules text [] text
  | token {text rest : List Char} {length : Nat} {rule : Rule} {tokens : List Token}
    (longest : IsGreatest (lengths rules text) length)
    (first : First (text.take length) rules rule)
    (more : CutsOff rules (text.drop length) tokens rest)
    : CutsOff rules text (⟨rule.label, .ofList (text.take length)⟩ :: tokens) rest

/-- The text of some tokens. -/
def lexemes (tokens : List Token) : List Char :=
  tokens.flatMap (·.lexeme.toList)

/-- No tokens have no text. -/
theorem lexemes_nil : lexemes [] = [] := rfl

/-- The text of some tokens is the lexeme of the first one, and then the text of the others. -/
theorem lexemes_cons (token : Token) (tokens : List Token)
    : lexemes (token :: tokens) = token.lexeme.toList ++ lexemes tokens := rfl

/-- Cutting an input by the rules ends with an error behind some tokens. -/
inductive Fails (rules : List Rule) (input : List Char) (tokens : List Token) : ScanError → Prop
  | hopeless {rest : List Char} {length : Nat} (cut : CutsOff rules input tokens rest)
    (none : lengths rules rest = ∅) (stuck : ¬∃ rule ∈ rules, rule.Begins rest)
    (longest : IsGreatest (hopefulLengths rules rest) length)
    : Fails rules input tokens
        (.noViableAlternative ((lexemes tokens).length + length)
          ((lexemes tokens ++ rest.take length).count '\n'))
  | unfinished {rest : List Char} (cut : CutsOff rules input tokens rest) (more : rest ≠ [])
    (none : lengths rules rest = ∅) (hope : ∃ rule ∈ rules, rule.Begins rest)
    : Fails rules input tokens (.unexpectedEnd (input.dropLast.count '\n'))

variable {rules : List Rule}

/-- The tokens and the rest make up the text, by induction on the tokens. -/
theorem CutsOff.spells {text rest : List Char} {tokens : List Token}
    (h : CutsOff rules text tokens rest)
    : lexemes tokens ++ rest = text := by
  induction h with
  | nothing => rfl
  | @token text rest length rule tokens _ _ _ ih =>
      rw [lexemes_cons, String.toList_ofList, List.append_assoc, ih, List.take_append_drop]

/-- If a word begins with a text, it begins with every beginning of the text. -/
theorem Begins.of_append {rule : Rule} {front back : List Char} (h : rule.Begins (front ++ back))
    : rule.Begins front := by
  obtain ⟨more, describes⟩ := h
  exact ⟨back ++ more, by rwa [← List.append_assoc]⟩

/-- The same for beginnings of given lengths. -/
theorem Begins.take {rule : Rule} {text : List Char} {few many : Nat}
    (h : rule.Begins (text.take many)) (le : few ≤ many)
    : rule.Begins (text.take few) := by
  obtain ⟨rest, whole⟩ := List.take_prefix_take_left (l := text) le
  rw [← whole] at h
  exact h.of_append

/-- The empty text has no lexeme, for lexemes are not empty. -/
theorem lengths_nil (rules : List Rule) : lengths rules [] = ∅ := by
  apply Set.eq_empty_of_forall_notMem
  rintro k ⟨some, within, _⟩
  exact absurd (Nat.le_trans some within) (by decide)

-----------------------------------------------------------------------------------------
-- Hope and life
-----------------------------------------------------------------------------------------

/-- The automaton of a rule is alive as long as some word of the rule begins with the text. -/
theorem alive_iff_begins {rule : Rule} {dfa : Dfa} (h : rule.compile = .ok dfa) {text : List Char}
    : dfa.Alive text ↔ rule.Begins text := by
  obtain ⟨tree, parsed, rfl⟩ := exists_ofTree_of_compile h
  simp [Dfa.alive_ofTree, Regex.Begins, Begins, Describes, parsed]

section

variable {automata : List Dfa}
  (compiled : List.Forall₂ (fun rule dfa => rule.compile = .ok dfa) rules automata)

include compiled

/-- Some automaton is still alive behind a text exactly if a word of some rule begins with it. -/
theorem exists_alive_iff (text : List Char)
    : (∃ dfa ∈ automata, dfa.Alive text) ↔ ∃ rule ∈ rules, rule.Begins text := by
  constructor
  · rintro ⟨dfa, mem, alive⟩
    obtain ⟨rule, given, own⟩ := exists_mem_of_forall₂ compiled.flip mem
    exact ⟨rule, given, (alive_iff_begins own).mp alive⟩
  · rintro ⟨rule, given, begun⟩
    obtain ⟨dfa, mem, own⟩ := exists_mem_of_forall₂ compiled given
    exact ⟨dfa, mem, (alive_iff_begins own).mpr begun⟩

/-- Every rule that was compiled has some word. -/
theorem exists_begins_nil (some : rules ≠ []) : ∃ rule ∈ rules, rule.Begins [] := by
  obtain ⟨rule, given⟩ := List.exists_mem_of_ne_nil rules some
  obtain ⟨dfa, _, own⟩ := exists_mem_of_forall₂ compiled given
  obtain ⟨tree, parsed, _⟩ := exists_ofTree_of_compile own
  obtain ⟨word, matched⟩ := tree.exists_matches
  exact ⟨rule, given, word, tree, parsed, matched⟩

variable {round : Round} {text : List Char}

/-- A round is over once no word of any rule begins with what has been read. -/
theorem isOver_iff (h : round.Reached automata text)
    : round.isOver = true ↔ ¬∃ rule ∈ rules, rule.Begins (text.take (round.index + 1)) := by
  rw [h.isOver_iff, ← exists_alive_iff compiled]
  simp only [not_exists, not_and]

/-- A round that is over has read all with which some word begins, and one character more. -/
theorem isGreatest_hopefulLengths (some : rules ≠ []) (h : round.Reached automata text)
    (finished : round.isOver = true)
    : IsGreatest (hopefulLengths rules text) round.index := by
  constructor
  · refine ⟨Nat.le_of_lt h.within, ?_⟩
    cases index : round.index with
    | zero => exact exists_begins_nil compiled some
    | succ i => exact (exists_alive_iff compiled _).mp (h.before i (by omega))
  · rintro k ⟨_, rule, given, begun⟩
    by_contra later
    exact (isOver_iff compiled h).mp finished ⟨rule, given, begun.take (by omega)⟩

/-- The round is over before the text ends, or at its end, exactly if no word begins with the text.
-/
theorem isOver_iff_stuck (h : round.Ended automata text)
    : round.isOver = true ↔ ¬∃ rule ∈ rules, rule.Begins text := by
  rw [h.isOver_iff, exists_alive_iff compiled]

/-- A round without a winner fails as the rules do. -/
theorem failure_of_stuck (some : rules ≠ []) {front : List Char} {length : Nat}
    (h : round.Ended automata text) (stuck : ¬∃ rule ∈ rules, rule.Begins text)
    (longest : IsGreatest (hopefulLengths rules text) length)
    : round.failure (.behind front) text
      = .noViableAlternative (front.length + length) ((front ++ text.take length).count '\n') := by
  have finished := (isOver_iff_stuck compiled h).mpr stuck
  have greatest := isGreatest_hopefulLengths compiled some h.reached finished
  obtain rfl : length = round.index := longest.unique greatest
  have bound : (text.take round.index).length = round.index :=
    List.length_take_of_le (Nat.le_of_lt h.reached.within)
  rw [Round.failure, Position.after_behind, finished, if_pos rfl, Position.behind,
    List.length_append, bound]

/-- A round in which a word may still go on at the end of the text fails for want of more text. -/
theorem failure_of_hope {front : List Char} (h : round.Ended automata text)
    (hope : ∃ rule ∈ rules, rule.Begins text)
    : round.failure (.behind front) text
      = .unexpectedEnd ((front ++ text).dropLast.count '\n') := by
  have running : round.isOver = false := by
    rw [Bool.eq_false_iff, ne_eq, isOver_iff_stuck compiled h]
    exact not_not_intro hope
  have more : text ≠ [] := List.ne_nil_of_length_pos (Nat.zero_lt_of_lt h.reached.within)
  rw [Round.failure, Position.after_behind, running, if_neg Bool.false_ne_true,
    h.take_eq_dropLast running, List.dropLast_append_of_ne_nil more]
  rfl

-----------------------------------------------------------------------------------------
-- One round after the other
-----------------------------------------------------------------------------------------

/-- Behind the tokens that the rules cut off the scan goes on, by induction on the tokens. -/
theorem scanFrom_of_cutsOff {rest : List Char} {tokens : List Token} (position : Position)
    (h : CutsOff rules text tokens rest)
    : scanFrom automata position text
      = ⟨tokens ++ (scanFrom automata (position.after (lexemes tokens)) rest).tokens,
          (scanFrom automata (position.after (lexemes tokens)) rest).failure⟩ := by
  induction h generalizing position with
  | nothing => rfl
  | @token text rest length rule tokens longest first _ ih =>
      have own := compiled.imp fun _ _ => compilesTo_of_compile
      obtain ⟨dfa, found, label⟩ := (find?_eq_some_iff own _ _).mpr ⟨rule, first, rfl⟩
      rw [← lexemeLengths_eq own] at longest
      have place : position.after (lexemes (⟨rule.label, .ofList (text.take length)⟩ :: tokens))
          = (position.after (text.take length)).after (lexemes tokens) := by
        rw [Position.after_after, lexemes_cons, String.toList_ofList]
      rw [scanFrom_of_longest position longest found, ih, label, place]
      rfl

/-- The rules cut off tokens until nothing in the rest is described, by induction on the rounds. -/
theorem exists_cutsOff (text : List Char)
    : ∃ tokens rest, CutsOff rules text tokens rest ∧ lengths rules rest = ∅ := by
  have own := compiled.imp fun _ _ => compilesTo_of_compile
  induction text using munch_induction automata with
  | done => exact ⟨[], [], .nothing [], lengths_nil rules⟩
  | stuck c rest none =>
      rw [lexemeLengths_eq own] at none
      exact ⟨[], c :: rest, .nothing _, none⟩
  | token lexeme rest dfa ahead ih =>
      obtain ⟨rule, first, _⟩ := (find?_eq_some_iff own _ _).mp ⟨dfa, ahead.first, rfl⟩
      obtain ⟨tokens, left, cut, none⟩ := ih
      have longest := ahead.longest
      rw [lexemeLengths_eq own] at longest
      have first' : First ((lexeme ++ rest).take lexeme.length) rules rule := by
        rwa [List.take_left]
      have cut' : CutsOff rules ((lexeme ++ rest).drop lexeme.length) tokens left := by
        rwa [List.drop_left]
      exact ⟨_, left, .token longest first' cut', none⟩

/-- A scan ends with the round in which nothing of the rest is described. -/
theorem exists_failure {input rest : List Char} {tokens : List Token}
    (cut : CutsOff rules input tokens rest) (more : rest ≠ []) (none : lengths rules rest = ∅)
    : ∃ round : Round,
        round.Ended automata rest
        ∧ scanFrom automata (.behind []) input
          = ⟨tokens, some (round.failure (.behind (lexemes tokens)) rest)⟩ := by
  obtain ⟨c, rest, rfl⟩ := List.exists_cons_of_ne_nil more
  rw [← lexemeLengths_eq (compiled.imp fun _ _ => compilesTo_of_compile)] at none
  obtain ⟨round, ended, failed⟩ := scanFrom_of_empty none
  refine ⟨round, ended, ?_⟩
  rw [scanFrom_of_cutsOff compiled _ cut, Position.after_behind, failed, List.append_nil,
    List.nil_append]

/-- What the rules say about a failure is what the scan reports: it cuts the same tokens off and
then fails at the same place.
-/
theorem scanFrom_of_fails (some : rules ≠ []) {input : List Char} {tokens : List Token}
    {error : ScanError} (h : Fails rules input tokens error)
    : scanFrom automata (.behind []) input = ⟨tokens, .some error⟩ := by
  cases h with
  | @hopeless rest length cut none stuck longest =>
      have more : rest ≠ [] := fun empty => stuck (empty ▸ exists_begins_nil compiled some)
      obtain ⟨round, ended, failed⟩ := exists_failure compiled cut more none
      rw [failed, failure_of_stuck compiled some ended stuck longest]
  | unfinished cut more none hope =>
      obtain ⟨round, ended, failed⟩ := exists_failure compiled cut more none
      rw [failed, failure_of_hope compiled ended hope, cut.spells]

/-- Behind the tokens that were cut off there is nothing left, or an error. -/
theorem consumed_or_fails (some : rules ≠ []) (input : List Char)
    : (∃ tokens, scanFrom automata (.behind []) input = ⟨tokens, none⟩)
      ∨ ∃ tokens error, Fails rules input tokens error := by
  obtain ⟨tokens, rest, cut, none⟩ := exists_cutsOff compiled input
  by_cases more : rest = []
  · left
    rw [scanFrom_of_cutsOff compiled _ cut, more, scanFrom]
    exact ⟨_, rfl⟩
  right
  by_cases hope : ∃ rule ∈ rules, rule.Begins rest
  · exact ⟨tokens, _, .unfinished cut more none hope⟩
  · obtain ⟨round, ended, _⟩ := exists_failure compiled cut more none
    have finished := (isOver_iff_stuck compiled ended).mpr hope
    have longest := isGreatest_hopefulLengths compiled some ended.reached finished
    exact ⟨tokens, _, .hopeless cut none hope longest⟩

/-- A scan by rules fails exactly as the rules say: behind their tokens, and with their error. -/
theorem scanFrom_eq_iff_fails (some : rules ≠ []) {input : List Char} {tokens : List Token}
    {error : ScanError}
    : scanFrom automata (.behind []) input = ⟨tokens, .some error⟩
      ↔ Fails rules input tokens error := by
  constructor
  · intro failed
    rcases consumed_or_fails compiled some input with ⟨_, consumed⟩ | ⟨_, _, fails⟩
    · rw [consumed] at failed
      cases failed
    · rw [scanFrom_of_fails compiled some fails] at failed
      obtain ⟨rfl, same⟩ := Scanned.mk.inj failed
      obtain rfl := Option.some.inj same
      exact fails
  · exact scanFrom_of_fails compiled some

end

end Rule

-----------------------------------------------------------------------------------------
-- Two rules
-----------------------------------------------------------------------------------------

namespace Rule

/-- A rule for the letter `a` with a line feed behind it, and one for a pair of letters. -/
def lineAndPair : List Rule :=
  [⟨"L", "a'\\n'"⟩, ⟨"B", "bc"⟩]

/-- The pattern of the first rule is the letter with a line feed behind it. -/
theorem parse_line : Regex.parse "a'\\n'" = .ok (.concat (.literal 'a') (.literal '\n')) := by
  decide +kernel

/-- The pattern of the second rule is the two letters. -/
theorem parse_pair : Regex.parse "bc" = .ok (.concat (.literal 'b') (.literal 'c')) := by
  decide +kernel

/-- The first rule describes one word. -/
theorem describes_line {word : List Char}
    : Describes ⟨"L", "a'\\n'"⟩ word ↔ word = ['a', '\n'] := by
  simp [Describes, parse_line, Regex.matches_concat]

/-- The second rule describes one word. -/
theorem describes_pair {word : List Char} : Describes ⟨"B", "bc"⟩ word ↔ word = ['b', 'c'] := by
  simp [Describes, parse_pair, Regex.matches_concat]

/-- The two rules begin with the beginnings of the two words that they describe. -/
theorem exists_begins_lineAndPair {word : List Char}
    : (∃ rule ∈ lineAndPair, rule.Begins word) ↔ word <+: ['a', '\n'] ∨ word <+: ['b', 'c'] := by
  simp [lineAndPair, Begins, describes_line, describes_pair, List.IsPrefix]

/-- A lexeme at the front of a text has two characters, those of one of the two words. -/
theorem of_mem_lengths_lineAndPair {text : List Char} {k : Nat} (mem : k ∈ lengths lineAndPair text)
    : k = 2 ∧ (text.take 2 = ['a', '\n'] ∨ text.take 2 = ['b', 'c']) := by
  obtain ⟨_, within, rule, given, word⟩ := mem
  have word : text.take k = ['a', '\n'] ∨ text.take k = ['b', 'c'] := by
    rcases List.mem_pair.mp given with rfl | rfl
    · exact Or.inl (describes_line.mp word)
    · exact Or.inr (describes_pair.mp word)
  obtain rfl : k = 2 := by
    rw [← List.length_take_of_le within]
    rcases word with word | word <;> rw [word] <;> rfl
  exact ⟨rfl, word⟩

/-- A text that begins with neither word has no lexeme. -/
theorem lengths_lineAndPair_eq_empty {text : List Char}
    (other : ¬(text.take 2 = ['a', '\n'] ∨ text.take 2 = ['b', 'c']))
    : lengths lineAndPair text = ∅ :=
  Set.eq_empty_of_forall_notMem fun _ mem => other (of_mem_lengths_lineAndPair mem).2

/-- The letter and the line feed at the front of a text are cut off as one token. -/
theorem cutsOff_lineAndPair (rest : List Char)
    : CutsOff lineAndPair ('a' :: '\n' :: rest) [⟨"L", "a\n"⟩] rest := by
  have longest : IsGreatest (lengths lineAndPair ('a' :: '\n' :: rest)) 2 := by
    refine ⟨⟨by decide, by simp, _, List.mem_cons_self, describes_line.mpr rfl⟩, fun k mem => ?_⟩
    exact Nat.le_of_eq (of_mem_lengths_lineAndPair mem).1
  exact .token longest (.here (describes_line.mpr rfl)) (.nothing rest)

end Rule

-----------------------------------------------------------------------------------------
-- Lexers of rules
-----------------------------------------------------------------------------------------

namespace Lexer

open Rule

/-- A lexer that is read from rules fails exactly where the rules do, with the tokens that they cut
off before.
-/
theorem tokenize_eq_error_iff {text : String} {lexer : Lexer}
    (read : ofRuleText text = .ok lexer)
    : ∃ rules,
        Rule.ofText text = .ok rules
        ∧ (rules ≠ []
          → ∀ input : String,
              (∀ error,
                lexer.tokenize input = .error error
                ↔ ∃ tokens, Rule.Fails rules input.toList tokens error)
              ∧ ∀ tokens error,
                  scanAll lexer.automata input.toList = ⟨tokens, some error⟩
                  ↔ Rule.Fails rules input.toList tokens error) := by
  obtain ⟨rules, found, compiled⟩ := exists_rules_of_ofRuleText read
  refine ⟨rules, found, fun some input => ?_⟩
  have fails (tokens : List Token) (error : ScanError)
      : scanAll lexer.automata input.toList = ⟨tokens, .some error⟩
        ↔ Rule.Fails rules input.toList tokens error := by
    rw [scanAll_eq_scanFrom (ne_nil_of_forall₂ compiled some)]
    exact Rule.scanFrom_eq_iff_fails compiled some
  refine ⟨fun error => ?_, fails⟩
  rw [tokenize, scan, Scanned.result_eq_error_iff]
  simp only [fails]

/-- Behind a line that was cut off, `b` is the beginning of a word and `bx` is not. -/
theorem tokenize_second_line
    : ∃ lexer,
        ofRuleText "L a'\\n';\nB bc;\n" = .ok lexer
        ∧ lexer.tokenize "a\nb" = .error (.unexpectedEnd 1)
        ∧ lexer.tokenize "a\nbx" = .error (.noViableAlternative 3 1)
        ∧ (scanAll lexer.automata "a\nbx".toList).tokens = [⟨"L", "a\n"⟩] := by
  have found : Rule.ofText "L a'\\n';\nB bc;\n" = .ok lineAndPair := by decide +kernel
  obtain ⟨lexer, read⟩ : ∃ lexer, ofRuleText "L a'\\n';\nB bc;\n" = .ok lexer := by
    rw [ofRuleText, found, lineAndPair]
    simp only [bind, Except.bind, ofRules, List.mapM_cons, List.mapM_nil, Rule.compile,
      Dfa.ofRegex, parse_line, parse_pair]
    exact ⟨_, rfl⟩
  obtain ⟨rules, found', fails⟩ := tokenize_eq_error_iff read
  obtain rfl := Except.ok.inj (found.symm.trans found')
  have longest : IsGreatest (hopefulLengths lineAndPair ['b', 'x']) 1 := by
    refine ⟨⟨by decide, exists_begins_lineAndPair.mpr (by decide)⟩, ?_⟩
    rintro k ⟨within, begun⟩
    by_contra longer
    obtain rfl : k = 2 := Nat.le_antisymm within (Nat.not_le.mp longer)
    exact absurd (exists_begins_lineAndPair.mp begun) (by decide)
  have early : Fails lineAndPair ['a', '\n', 'b'] [⟨"L", "a\n"⟩] (.unexpectedEnd 1) :=
    .unfinished (cutsOff_lineAndPair ['b']) (by decide) (lengths_lineAndPair_eq_empty (by decide))
      (exists_begins_lineAndPair.mpr (by decide))
  have stuck : Fails lineAndPair ['a', '\n', 'b', 'x'] [⟨"L", "a\n"⟩] (.noViableAlternative 3 1) :=
    .hopeless (cutsOff_lineAndPair ['b', 'x']) (lengths_lineAndPair_eq_empty (by decide))
      (mt exists_begins_lineAndPair.mp (by decide)) longest
  have some : lineAndPair ≠ [] := List.cons_ne_nil _ _
  refine ⟨lexer, read, ((fails some "a\nb").1 _).mpr ⟨_, early⟩,
    ((fails some "a\nbx").1 _).mpr ⟨_, stuck⟩, ?_⟩
  rw [((fails some "a\nbx").2 _ _).mpr stuck]

end Lexer

end Munch
