import Mathlib.Tactic.Common
import Munch.Automaton.Thompson
import Munch.Regex.Language

/-! What the fragments of Thompson's construction accept. Every state has a residual: the words
that lead from there to the exit. Residuals are stated by recursion on the expression, so nested
repetitions are cut without looking at paths, and the paths of a fragment spell exactly them.
-/

namespace Munch

open Regex (Matches)

/-- What reading the symbol takes from a word. -/
def Symbol.spelling : Symbol → List Char
  | .epsilon => []
  | .char c => [c]

/-- A path stays one when there are more transitions, by induction on the path. -/
theorem Nfa.Path.mono {ts us : Transitions Symbol} {p q : State} {word : List Char}
    (h : Path ts p word q) (sub : ∀ t ∈ ts, t ∈ us)
    : Path us p word q := by
  induction h with
  | nil q => exact .nil q
  | silent first _ ih => exact .silent (sub _ first) ih
  | char first _ ih => exact .char (sub _ first) ih

namespace Fragment

open Nfa (Path)

-----------------------------------------------------------------------------------------
-- The states and the symbols of a fragment
-----------------------------------------------------------------------------------------

/-- The state is one of those that the fragment of the expression is given. -/
def Owns (base : Nat) (tree : Regex) (q : Nat) : Prop :=
  base ≤ q ∧ q < base + tree.stateCount

/-- A fragment is entered at a state of its own. -/
theorem owns_entry (base : State) (tree : Regex) : Owns base tree (ofRegex base tree).entry := by
  induction tree generalizing base with
  | literal c => simp [Owns, ofRegex, Regex.stateCount]
  | star inner | plus inner => simp [Owns, ofRegex, Regex.stateCount]
  | concat left right ihLeft =>
      have := ihLeft base
      simp only [Owns, ofRegex, Regex.stateCount] at this ⊢
      omega
  | union left right =>
      simp only [Owns, ofRegex, Regex.stateCount]
      omega

/-- A fragment is left at a state of its own. -/
theorem owns_exit (base : State) (tree : Regex) : Owns base tree (ofRegex base tree).exit := by
  induction tree generalizing base with
  | literal c => simp [Owns, ofRegex, Regex.stateCount]
  | star inner | plus inner => simp [Owns, ofRegex, Regex.stateCount]; omega
  | concat left right _ ihRight =>
      have := ihRight (base + left.stateCount)
      simp only [Owns, ofRegex, Regex.stateCount] at this ⊢
      omega
  | union left right =>
      simp only [Owns, ofRegex, Regex.stateCount]
      omega

/-- The transitions of a fragment stay among its own states, by recursion on the expression. -/
theorem owns_of_mem {base : State} {tree : Regex} {t : Transition Symbol}
    (h : t ∈ (ofRegex base tree).transitions)
    : Owns base tree t.source ∧ Owns base tree t.target := by
  induction tree generalizing base with
  | literal c =>
      obtain rfl := List.mem_singleton.mp h
      simp [Owns, Regex.stateCount]
  | concat left right ihLeft ihRight =>
      have first := owns_exit base left
      have second := owns_entry (base + left.stateCount) right
      simp only [ofRegex, Transitions.mem_append, Transitions.mem_merge,
        List.mem_singleton] at h
      rcases h with (inLeft | inRight) | rfl
      · have := ihLeft inLeft
        simp only [Owns, Regex.stateCount] at this ⊢
        omega
      · have := ihRight inRight
        simp only [Owns, Regex.stateCount] at this ⊢
        omega
      · simp only [Owns, Regex.stateCount] at first second ⊢
        omega
  | union left right ihLeft ihRight =>
      have leftEntry := owns_entry base left
      have leftExit := owns_exit base left
      have rightEntry := owns_entry (base + left.stateCount) right
      have rightExit := owns_exit (base + left.stateCount) right
      simp only [Owns] at leftEntry leftExit rightEntry rightExit
      simp only [ofRegex, Transitions.mem_append, Transitions.mem_merge, List.mem_cons,
        List.not_mem_nil, or_false] at h
      rcases h with (inLeft | inRight) | rfl | rfl | rfl | rfl
      · have := ihLeft inLeft
        simp only [Owns, Regex.stateCount] at this ⊢
        omega
      · have := ihRight inRight
        simp only [Owns, Regex.stateCount] at this ⊢
        omega
      all_goals
        simp only [Owns, Regex.stateCount]
        omega
  | star inner ih =>
      have bodyEntry := owns_entry base inner
      have bodyExit := owns_exit base inner
      simp only [Owns] at bodyEntry bodyExit
      simp only [ofRegex, Transitions.mem_append, List.mem_cons, List.not_mem_nil,
        or_false] at h
      rcases h with inBody | rfl | rfl | rfl | rfl
      · have := ih inBody
        simp only [Owns, Regex.stateCount] at this ⊢
        omega
      all_goals
        simp only [Owns, Regex.stateCount]
        omega
  | plus inner ih =>
      have bodyEntry := owns_entry base inner
      have bodyExit := owns_exit base inner
      simp only [Owns] at bodyEntry bodyExit
      simp only [ofRegex, Transitions.mem_append, List.mem_cons, List.not_mem_nil,
        or_false] at h
      rcases h with inBody | rfl | rfl | rfl
      · have := ih inBody
        simp only [Owns, Regex.stateCount] at this ⊢
        omega
      all_goals
        simp only [Owns, Regex.stateCount]
        omega

/-- The alphabet of a fragment has every character that one of its transitions reads. -/
theorem mem_alphabet_of_mem {base : State} {tree : Regex} {p q : State} {c : Char}
    (h : ⟨p, .char c, q⟩ ∈ (ofRegex base tree).transitions)
    : c ∈ (ofRegex base tree).alphabet := by
  induction tree generalizing base with
  | literal d =>
      have same := (Transition.mk.inj (List.mem_singleton.mp h)).2.1
      simpa [ofRegex] using same
  | concat left right ihLeft ihRight | union left right ihLeft ihRight =>
      simp only [ofRegex, SortedSet.mem_union]
      simp only [ofRegex, Transitions.mem_append, Transitions.mem_merge] at h
      rcases h with (inLeft | inRight) | added
      · exact Or.inl (ihLeft inLeft)
      · exact Or.inr (ihRight inRight)
      · simp at added
  | star inner ih | plus inner ih =>
      simp only [ofRegex, Transitions.mem_append] at h
      rcases h with inBody | added
      · exact ih inBody
      · simp at added

-----------------------------------------------------------------------------------------
-- Residuals, by recursion on the expression
-----------------------------------------------------------------------------------------

/-- What leads through a repetition, by the region of the state: in the body first to the exit of
the body and then through further repetitions, before the body through the whole expression.
-/
def Repeated (before : Nat) (body : List Char → Prop) (inner whole : Regex) (q : Nat)
    (word : List Char) : Prop :=
  if q < before then
    ∃ front back, word = front ++ back ∧ body front ∧ Matches (.star inner) back
  else if q = before then Matches whole word
  else word = []

/-- The word leads from the state to the exit of the fragment of the expression. -/
def Residual (base : Nat) : Regex → Nat → List Char → Prop
  | .literal c, q, word => if q = base then word = [c] else word = []
  | .concat left right, q, word =>
      if q < base + left.stateCount then
        ∃ front back, word = front ++ back ∧ Residual base left q front ∧ Matches right back
      else Residual (base + left.stateCount) right q word
  | .union left right, q, word =>
      let fork := base + left.stateCount + right.stateCount
      if q < base + left.stateCount then Residual base left q word
      else if q < fork then Residual (base + left.stateCount) right q word
      else if q = fork then Matches (.union left right) word
      else word = []
  | .star inner, q, word =>
      Repeated (base + inner.stateCount) (Residual base inner q) inner (.star inner) q word
  | .plus inner, q, word =>
      Repeated (base + inner.stateCount) (Residual base inner q) inner (.plus inner) q word

section Regions

variable {base before q : Nat} {body : List Char → Prop} {inner whole left right : Regex}
  {word : List Char}

/-- From a state of the body, a word leads through the rest of the body and then through further
repetitions.
-/
theorem repeated_body (h : q < before)
    : Repeated before body inner whole q word
      ↔ ∃ front back, word = front ++ back ∧ body front ∧ Matches (.star inner) back := by
  rw [Repeated, if_pos h]

/-- From the state before the body, a word of the whole expression leads through. -/
theorem repeated_before
    : Repeated before body inner whole before word ↔ Matches whole word := by
  rw [Repeated, if_neg (Nat.lt_irrefl _), if_pos rfl]

/-- From the state behind the body, only the empty word leads through. -/
theorem repeated_after
    : Repeated before body inner whole (before + 1) word ↔ word = [] := by
  rw [Repeated, if_neg (by omega), if_neg (by omega)]

/-- At the entry of a literal its character is left to read, and at its exit nothing is. -/
theorem residual_literal {c : Char}
    : Residual base (.literal c) q word ↔ if q = base then word = [c] else word = [] :=
  Iff.rfl

/-- From a state of the first operand, a word leads through the rest of it and then through the
second one.
-/
theorem residual_concat_left (h : q < base + left.stateCount)
    : Residual base (.concat left right) q word
      ↔ ∃ front back,
          word = front ++ back ∧ Residual base left q front ∧ Matches right back :=
  iff_of_eq (if_pos h)

/-- From a state of the second operand, what leads through is what leads through that operand. -/
theorem residual_concat_right (h : base + left.stateCount ≤ q)
    : Residual base (.concat left right) q word
      ↔ Residual (base + left.stateCount) right q word :=
  iff_of_eq (if_neg (Nat.not_lt.mpr h))

/-- From a state of the first alternative, what leads through is what leads through that
alternative.
-/
theorem residual_union_left (h : q < base + left.stateCount)
    : Residual base (.union left right) q word ↔ Residual base left q word :=
  iff_of_eq (if_pos h)

/-- From a state of the second alternative, what leads through is what leads through that
alternative.
-/
theorem residual_union_right (notLeft : base + left.stateCount ≤ q)
    (h : q < base + left.stateCount + right.stateCount)
    : Residual base (.union left right) q word
      ↔ Residual (base + left.stateCount) right q word :=
  iff_of_eq ((if_neg (Nat.not_lt.mpr notLeft)).trans (if_pos h))

/-- From the fork, a word of either alternative leads through. -/
theorem residual_fork
    : Residual base (.union left right) (base + left.stateCount + right.stateCount) word
      ↔ Matches (.union left right) word := by
  have notLeft : ¬base + left.stateCount + right.stateCount < base + left.stateCount := by
    omega
  exact iff_of_eq ((if_neg notLeft).trans ((if_neg (Nat.lt_irrefl _)).trans (if_pos rfl)))

/-- From the join, only the empty word leads through. -/
theorem residual_join
    : Residual base (.union left right) (base + left.stateCount + right.stateCount + 1) word
      ↔ word = [] := by
  have notLeft : ¬base + left.stateCount + right.stateCount + 1 < base + left.stateCount := by
    omega
  exact iff_of_eq ((if_neg notLeft).trans ((if_neg (by omega)).trans (if_neg (by omega))))

end Regions

/-- From the entry lead exactly the words of the language. -/
theorem residual_entry {base : State} {tree : Regex} {word : List Char}
    : Residual base tree (ofRegex base tree).entry word ↔ Matches tree word := by
  induction tree generalizing base word with
  | literal c => simp [residual_literal, ofRegex]
  | concat left right ihLeft _ =>
      rw [show (ofRegex base (.concat left right)).entry = (ofRegex base left).entry from rfl,
        residual_concat_left (owns_entry base left).2]
      simp only [ihLeft]
      rfl
  | union left right => exact residual_fork
  | star inner | plus inner => exact repeated_before

/-- From the exit leads the empty word alone. -/
theorem residual_exit {base : State} {tree : Regex} {word : List Char}
    : Residual base tree (ofRegex base tree).exit word ↔ word = [] := by
  induction tree generalizing base word with
  | literal c => simp [residual_literal, ofRegex]
  | concat left right _ ihRight =>
      exact (residual_concat_right (owns_exit _ right).1).trans ihRight
  | union left right => exact residual_join
  | star inner | plus inner => exact repeated_after

-----------------------------------------------------------------------------------------
-- Transitions carry residuals backwards
-----------------------------------------------------------------------------------------

/-- A transition of the body of a repetition carries residuals backwards, if it does so for the
residuals of the body.
-/
theorem repeated_step {before : Nat} {body : State → List Char → Prop} {inner whole : Regex}
    {p q : Nat} {letters word : List Char} (source : p < before) (target : q < before)
    (carry : ∀ rest, body q rest → body p (letters ++ rest))
    (rest : Repeated before (body q) inner whole q word)
    : Repeated before (body p) inner whole p (letters ++ word) := by
  obtain ⟨front, back, rfl, through, more⟩ := (repeated_body target).mp rest
  exact (repeated_body source).mpr
    ⟨letters ++ front, back, by simp, carry front through, more⟩

/-- The silent transitions around the body of a repetition carry residuals backwards: into the
body, out of it, and from its exit back to its entry.
-/
theorem repeated_silent {base : State} {inner whole : Regex} {word : List Char}
    (unfolds : ∀ front back, Matches inner front → Matches (.star inner) back
      → Matches whole (front ++ back))
    : let before := base + inner.stateCount
      let body := ofRegex base inner
      let repeated := fun q => Repeated before (Residual base inner q) inner whole q
      (repeated body.entry word → repeated before word)
        ∧ (repeated (before + 1) word → repeated body.exit word)
        ∧ (repeated body.entry word → repeated body.exit word) := by
  intro before body repeated
  have entryInBody : body.entry < before := (owns_entry base inner).2
  have exitInBody : body.exit < before := (owns_exit base inner).2
  refine ⟨fun rest => ?_, fun rest => ?_, fun rest => ?_⟩
  · obtain ⟨front, back, rfl, first, more⟩ := (repeated_body entryInBody).mp rest
    exact repeated_before.mpr (unfolds front back (residual_entry.mp first) more)
  · obtain rfl := repeated_after.mp rest
    exact (repeated_body exitInBody).mpr
      ⟨[], [], rfl, residual_exit.mpr rfl, Regex.matches_star_nil inner⟩
  · obtain ⟨front, back, rfl, first, more⟩ := (repeated_body entryInBody).mp rest
    have again := Regex.matches_star_append (residual_entry.mp first) more
    exact (repeated_body exitInBody).mpr ⟨[], front ++ back, rfl, residual_exit.mpr rfl, again⟩

/-- What leads on from the target of a transition leads on from its source behind the symbol, by
cases on where the transition lies.
-/
theorem residual_step {base : State} {tree : Regex} {p q : State} {a : Symbol}
    {word : List Char} (stored : ⟨p, a, q⟩ ∈ (ofRegex base tree).transitions)
    (rest : Residual base tree q word)
    : Residual base tree p (a.spelling ++ word) := by
  induction tree generalizing base p q word with
  | literal c =>
      obtain ⟨rfl, rfl, rfl⟩ := Transition.mk.inj (List.mem_singleton.mp stored)
      simp_all [residual_literal, Symbol.spelling]
  | concat left right ihLeft ihRight =>
      simp only [ofRegex, Transitions.mem_append, Transitions.mem_merge, List.mem_singleton,
        Transition.mk.injEq] at stored
      rcases stored with (inLeft | inRight) | ⟨rfl, rfl, rfl⟩
      · obtain ⟨source, target⟩ := owns_of_mem inLeft
        obtain ⟨front, back, rfl, through, more⟩ := (residual_concat_left target.2).mp rest
        exact (residual_concat_left source.2).mpr
          ⟨a.spelling ++ front, back, by simp, ihLeft inLeft through, more⟩
      · obtain ⟨source, target⟩ := owns_of_mem inRight
        have through := (residual_concat_right target.1).mp rest
        exact (residual_concat_right source.1).mpr (ihRight inRight through)
      · have through := (residual_concat_right (owns_entry _ right).1).mp rest
        exact (residual_concat_left (owns_exit base left).2).mpr
          ⟨[], word, rfl, residual_exit.mpr rfl, residual_entry.mp through⟩
  | union left right ihLeft ihRight =>
      have leftEntry := owns_entry base left
      have leftExit := owns_exit base left
      have rightEntry := owns_entry (base + left.stateCount) right
      have rightExit := owns_exit (base + left.stateCount) right
      simp only [ofRegex, Transitions.mem_append, Transitions.mem_merge, List.mem_cons,
        List.not_mem_nil, or_false, Transition.mk.injEq] at stored
      rcases stored with (inLeft | inRight) | ⟨rfl, rfl, rfl⟩ | ⟨rfl, rfl, rfl⟩ |
        ⟨rfl, rfl, rfl⟩ | ⟨rfl, rfl, rfl⟩
      · obtain ⟨source, target⟩ := owns_of_mem inLeft
        have through := (residual_union_left target.2).mp rest
        exact (residual_union_left source.2).mpr (ihLeft inLeft through)
      · obtain ⟨source, target⟩ := owns_of_mem inRight
        have through := (residual_union_right target.1 target.2).mp rest
        exact (residual_union_right source.1 source.2).mpr (ihRight inRight through)
      · have through := (residual_union_left leftEntry.2).mp rest
        exact residual_fork.mpr (Or.inl (residual_entry.mp through))
      · have through := (residual_union_right rightEntry.1 rightEntry.2).mp rest
        exact residual_fork.mpr (Or.inr (residual_entry.mp through))
      · have ended := residual_join.mp rest
        exact (residual_union_right rightExit.1 rightExit.2).mpr (residual_exit.mpr ended)
      · have ended := residual_join.mp rest
        exact (residual_union_left leftExit.2).mpr (residual_exit.mpr ended)
  | star inner ih =>
      obtain ⟨into, out, again⟩ :=
        @repeated_silent base inner (.star inner) word fun _ _ => Regex.matches_star_append
      simp only [ofRegex, Transitions.mem_append, List.mem_cons, List.not_mem_nil, or_false,
        Transition.mk.injEq] at stored
      rcases stored with inBody | ⟨rfl, rfl, rfl⟩ | ⟨rfl, rfl, rfl⟩ | ⟨rfl, rfl, rfl⟩ |
        ⟨rfl, rfl, rfl⟩
      · obtain ⟨source, target⟩ := owns_of_mem inBody
        exact repeated_step source.2 target.2 (fun _ => ih inBody) rest
      · exact into rest
      · exact out rest
      · obtain rfl := repeated_after.mp rest
        exact repeated_before.mpr (Regex.matches_star_nil inner)
      · exact again rest
  | plus inner ih =>
      obtain ⟨into, out, again⟩ :=
        @repeated_silent base inner (.plus inner) word fun front back first more =>
          Regex.matches_plus.mpr ⟨front, back, rfl, first, more⟩
      simp only [ofRegex, Transitions.mem_append, List.mem_cons, List.not_mem_nil, or_false,
        Transition.mk.injEq] at stored
      rcases stored with inBody | ⟨rfl, rfl, rfl⟩ | ⟨rfl, rfl, rfl⟩ | ⟨rfl, rfl, rfl⟩
      · obtain ⟨source, target⟩ := owns_of_mem inBody
        exact repeated_step source.2 target.2 (fun _ => ih inBody) rest
      · exact into rest
      · exact out rest
      · exact again rest

-----------------------------------------------------------------------------------------
-- Paths spell residuals
-----------------------------------------------------------------------------------------

/-- Further repetitions of a body lead from its exit to a state that the exit leads to silently, by
induction on the repetitions.
-/
theorem path_of_pieces {ts : Transitions Symbol} {entry exit after : State} {inner : Regex}
    (again : ⟨exit, .epsilon, entry⟩ ∈ ts) (out : ⟨exit, .epsilon, after⟩ ∈ ts)
    (through : ∀ piece, Matches inner piece → Path ts entry piece exit) {word : List Char}
    (more : Matches (.star inner) word)
    : Path ts exit word after := by
  obtain ⟨pieces, rfl, each⟩ := more
  induction pieces with
  | nil => exact .silent out (.nil after)
  | cons piece pieces ih =>
      have first := through piece (each piece (by simp))
      have others := ih fun other mem => each other (by simp [mem])
      exact .silent again (first.append others)

/-- A residual of a state of a repetition is spelled by some path to the state behind the body, if
paths through the body spell its residuals.
-/
theorem path_of_repeated {ts : Transitions Symbol} {base q : Nat} {inner whole : Regex}
    {word : List Char}
    (through
      : ∀ r rest,
          Owns base inner r
          → Residual base inner r rest
          → Path ts r rest (ofRegex base inner).exit)
    (into : ⟨base + inner.stateCount, .epsilon, (ofRegex base inner).entry⟩ ∈ ts)
    (out : ⟨(ofRegex base inner).exit, .epsilon, base + inner.stateCount + 1⟩ ∈ ts)
    (again : ⟨(ofRegex base inner).exit, .epsilon, (ofRegex base inner).entry⟩ ∈ ts)
    (unfolds
      : Matches whole word
        → (word = [] ∧ ⟨base + inner.stateCount, .epsilon, base + inner.stateCount + 1⟩ ∈ ts)
          ∨ Matches (.plus inner) word)
    (own : base ≤ q ∧ q < base + (inner.stateCount + 2))
    (h : Repeated (base + inner.stateCount) (Residual base inner q) inner whole q word)
    : Path ts q word (base + inner.stateCount + 1) := by
  have piece (front : List Char) (first : Matches inner front)
      : Path ts (ofRegex base inner).entry front (ofRegex base inner).exit :=
    through _ _ (owns_entry base inner) (residual_entry.mpr first)
  by_cases inBody : q < base + inner.stateCount
  · obtain ⟨front, back, rfl, rest, more⟩ := (repeated_body inBody).mp h
    exact (through q front ⟨own.1, inBody⟩ rest).append (path_of_pieces again out piece more)
  by_cases atBefore : q = base + inner.stateCount
  · subst atBefore
    rcases unfolds (repeated_before.mp h) with ⟨rfl, bypass⟩ | pieces
    · exact .silent bypass (.nil _)
    · obtain ⟨front, back, rfl, first, more⟩ := Regex.matches_plus.mp pieces
      exact .silent into ((piece front first).append (path_of_pieces again out piece more))
  · obtain rfl : q = base + inner.stateCount + 1 := by omega
    obtain rfl := repeated_after.mp h
    exact .nil _

/-- A residual of an own state is spelled by some path to the exit, by recursion on the
expression.
-/
theorem path_of_residual {base q : Nat} {tree : Regex} {word : List Char}
    (own : Owns base tree q) (h : Residual base tree q word)
    : Path (ofRegex base tree).transitions q word (ofRegex base tree).exit := by
  induction tree generalizing base q word with
  | literal c =>
      simp only [Owns, Regex.stateCount] at own
      rw [residual_literal] at h
      split at h
      · subst q word
        exact .char (by simp [ofRegex, ← Transitions.mem_toList]) (.nil _)
      · obtain rfl : q = base + 1 := by omega
        subst word
        exact .nil _
  | concat left right ihLeft ihRight =>
      have fromRight {r : State} {rest : List Char}
          (own : Owns (base + left.stateCount) right r)
          (h : Residual (base + left.stateCount) right r rest)
          : Path (ofRegex base (.concat left right)).transitions r rest
              (ofRegex base (.concat left right)).exit :=
        (ihRight own h).mono fun t mem => by simp [ofRegex, mem]
      by_cases inLeft : q < base + left.stateCount
      · obtain ⟨front, back, rfl, through, more⟩ := (residual_concat_left inLeft).mp h
        have first : Path (ofRegex base (.concat left right)).transitions q front
            (ofRegex base left).exit :=
          (ihLeft ⟨own.1, inLeft⟩ through).mono fun t mem => by simp [ofRegex, mem]
        have second := fromRight (owns_entry _ right) (residual_entry.mpr more)
        exact first.append (.silent (by simp [ofRegex]) second)
      · simp only [Owns, Regex.stateCount] at own
        have notLeft : base + left.stateCount ≤ q := by omega
        exact fromRight ⟨notLeft, by omega⟩ ((residual_concat_right notLeft).mp h)
  | union left right ihLeft ihRight =>
      let whole := ofRegex base (.union left right)
      have fromLeft {r : State} {rest : List Char} (own : Owns base left r)
          (h : Residual base left r rest)
          : Path whole.transitions r rest whole.exit := by
        have through : Path whole.transitions r rest (ofRegex base left).exit :=
          (ihLeft own h).mono fun t mem => by simp [whole, ofRegex, mem]
        simpa using through.append (.silent (by simp [whole, ofRegex]) (.nil _))
      have fromRight {r : State} {rest : List Char}
          (own : Owns (base + left.stateCount) right r)
          (h : Residual (base + left.stateCount) right r rest)
          : Path whole.transitions r rest whole.exit := by
        have through : Path whole.transitions r rest
            (ofRegex (base + left.stateCount) right).exit :=
          (ihRight own h).mono fun t mem => by simp [whole, ofRegex, mem]
        simpa using through.append (.silent (by simp [whole, ofRegex]) (.nil _))
      simp only [Owns, Regex.stateCount] at own
      by_cases inLeft : q < base + left.stateCount
      · exact fromLeft ⟨own.1, inLeft⟩ ((residual_union_left inLeft).mp h)
      by_cases inRight : q < base + left.stateCount + right.stateCount
      · have notLeft : base + left.stateCount ≤ q := by omega
        exact fromRight ⟨notLeft, inRight⟩ ((residual_union_right notLeft inRight).mp h)
      by_cases atFork : q = base + left.stateCount + right.stateCount
      · subst atFork
        rcases residual_fork.mp h with first | second
        · have rest := fromLeft (owns_entry base left) (residual_entry.mpr first)
          exact .silent (by simp [ofRegex]) rest
        · have rest := fromRight (owns_entry _ right) (residual_entry.mpr second)
          exact .silent (by simp [ofRegex]) rest
      · obtain rfl : q = base + left.stateCount + right.stateCount + 1 := by omega
        obtain rfl := residual_join.mp h
        exact .nil _
  | star inner ih =>
      have unfolds (nonempty : Matches (.star inner) word)
          : word = [] ∨ Matches (.plus inner) word := by
        obtain ⟨pieces, rfl, each⟩ := nonempty
        cases pieces with
        | nil => exact Or.inl rfl
        | cons piece pieces => exact Or.inr ⟨piece :: pieces, by simp, rfl, each⟩
      refine path_of_repeated (fun r rest own h => ?_) (by simp [ofRegex]) (by simp [ofRegex])
        (by simp [ofRegex]) (fun pieces => ?_) own h
      · exact (ih own h).mono fun t mem => by simp [ofRegex, mem]
      · exact (unfolds pieces).imp_left fun ended => ⟨ended, by simp [ofRegex]⟩
  | plus inner ih =>
      refine path_of_repeated (fun r rest own h => ?_) (by simp [ofRegex]) (by simp [ofRegex])
        (by simp [ofRegex]) Or.inr own h
      exact (ih own h).mono fun t mem => by simp [ofRegex, mem]

/-- The paths from a state to the exit spell exactly its residuals: a transition carries residuals
backwards, so they follow a path from its end to its beginning.
-/
theorem path_exit_iff {base : State} {tree : Regex} {q : State} {word : List Char}
    (own : Owns base tree q)
    : Path (ofRegex base tree).transitions q word (ofRegex base tree).exit
      ↔ Residual base tree q word := by
  constructor
  · intro path
    generalize goal : (ofRegex base tree).exit = exit at path
    induction path with
    | nil => exact goal ▸ residual_exit.mpr rfl
    | silent first _ ih => exact residual_step first (ih (owns_of_mem first).2 goal)
    | char first _ ih => exact residual_step first (ih (owns_of_mem first).2 goal)
  · exact path_of_residual own

end Fragment

end Munch
