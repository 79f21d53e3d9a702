import Munch.Proofs.CompiledSinks

/-! The shape of Thompson's automata. A fragment is made of the fragments of its operands and of
silent joints, which start at new states and at exits. Nothing leaves an exit before, so the parts
share no source, and what holds of the ways out of each part holds of those of the whole.
-/

namespace Munch

/-- Elements that stand once are kept. -/
theorem eraseDups_of_nodup {α : Type} [DecidableEq α] {items : List α} (h : items.Nodup)
    : items.eraseDups = items := by
  induction items with
  | nil => rfl
  | cons a items ih =>
      obtain ⟨new, others⟩ := List.nodup_cons.mp h
      have kept : items.filter (fun b => !b == a) = items := by
        refine List.filter_eq_self.mpr fun b mem => ?_
        simpa using fun same : b = a => new (same ▸ mem)
      rw [List.eraseDups_cons, kept, ih others]

namespace Regex

/-- The symbol is a character. -/
def Head.isLiteral : Head → Bool
  | .literal _ => true
  | _ => false

/-- How many nodes of the tree are of some kind. -/
def nodeCount (kind : Head → Bool) (tree : Regex) : Nat :=
  tree.preorder.countP kind

section NodeCount

variable {kind : Head → Bool} {inner left right : Regex}

/-- A literal is one node. -/
@[simp]
theorem nodeCount_literal {c : Char}
    : (literal c).nodeCount kind = if kind (.literal c) then 1 else 0 := by
  simp [nodeCount, preorder, List.countP_cons]

/-- A repetition has one node more than its operand. -/
@[simp]
theorem nodeCount_star
    : (star inner).nodeCount kind = inner.nodeCount kind + if kind .star then 1 else 0 :=
  List.countP_cons

/-- A repetition has one node more than its operand, also if it may not be left out. -/
@[simp]
theorem nodeCount_plus
    : (plus inner).nodeCount kind = inner.nodeCount kind + if kind .plus then 1 else 0 :=
  List.countP_cons

/-- A concatenation has one node more than its operands together. -/
@[simp]
theorem nodeCount_concat
    : (concat left right).nodeCount kind
      = left.nodeCount kind + right.nodeCount kind + if kind .concat then 1 else 0 := by
  simp [nodeCount, preorder, List.countP_cons]

/-- A union has one node more than its operands together. -/
@[simp]
theorem nodeCount_union
    : (union left right).nodeCount kind
      = left.nodeCount kind + right.nodeCount kind + if kind .union then 1 else 0 := by
  simp [nodeCount, preorder, List.countP_cons]

end NodeCount

end Regex

-----------------------------------------------------------------------------------------
-- The ways out of a state
-----------------------------------------------------------------------------------------

/-- The transitions that leave a state, in storage order. -/
def leaving (items : List (Transition Symbol)) (q : State) : List (Transition Symbol) :=
  items.filter (·.source = q)

/-- The ways out of one state: one that reads a character, or at most two that are silent. -/
def Forks (ways : List (Transition Symbol)) : Prop :=
  (∃ p c q, ways = [⟨p, .char c, q⟩])
  ∨ ((∀ t ∈ ways, t.symbol = .epsilon) ∧ ways.length ≤ 2)

/-- No transition of the one list starts where a transition of the other one does. -/
def SourcesApart (first second : List (Transition Symbol)) : Prop :=
  ∀ t ∈ first, ∀ u ∈ second, t.source ≠ u.source

/-- Each transition stands once, and no state has more ways out than it may. -/
structure Branching (items : List (Transition Symbol)) : Prop where
  nodup : items.Nodup
  forks (q : State) : Forks (leaving items q)

/-- A state at which no transition starts has no way out. -/
theorem leaving_eq_nil {items : List (Transition Symbol)} {q : State}
    (unused : ∀ t ∈ items, t.source ≠ q)
    : leaving items q = [] :=
  List.filter_eq_nil_iff.mpr fun t mem => by simpa using unused t mem

/-- Where the sources of two parts are apart, a state has the ways out that it has in one part. -/
theorem Branching.append {first second : List (Transition Symbol)} (hf : Branching first)
    (hs : Branching second) (apart : SourcesApart first second)
    : Branching (first ++ second) where
  nodup := List.nodup_append.mpr
    ⟨hf.nodup, hs.nodup, fun t mem u mem' same => apart t mem u mem' (congrArg _ same)⟩
  forks := by
    intro q
    rw [leaving, List.filter_append]
    by_cases used : ∃ t ∈ first, t.source = q
    · obtain ⟨t, mem, rfl⟩ := used
      have others : leaving second t.source = [] :=
        leaving_eq_nil fun u mem' same => apart t mem u mem' same.symm
      rw [← leaving, ← leaving, others, List.append_nil]
      exact hf.forks t.source
    · have none : leaving first q = [] :=
        leaving_eq_nil fun t mem same => used ⟨t, mem, same⟩
      rw [← leaving, ← leaving, none, List.nil_append]
      exact hs.forks q

/-- A few silent transitions branch as they may, if no three of them leave one state. -/
theorem Branching.of_silent {joints : List (Transition Symbol)}
    (silent : ∀ t ∈ joints, t.symbol = .epsilon) (nodup : joints.Nodup)
    (few : ∀ q, (leaving joints q).length ≤ 2)
    : Branching joints where
  nodup := nodup
  forks q := Or.inr ⟨fun t mem => silent t (List.mem_of_mem_filter mem), few q⟩

namespace Fragment

open Nfa (Path)
open Regex (Head)

-----------------------------------------------------------------------------------------
-- Entries, exits and joints
-----------------------------------------------------------------------------------------

/-- A fragment is entered and left at different states, by induction on the expression. -/
theorem entry_ne_exit (base : State) (tree : Regex)
    : (ofRegex base tree).entry ≠ (ofRegex base tree).exit := by
  cases tree with
  | literal c | union left right | star inner | plus inner => simp [ofRegex]
  | concat left right =>
      have first := (owns_entry base left).2
      have second := (owns_exit (base + left.stateCount) right).1
      exact Nat.ne_of_lt (Nat.lt_of_lt_of_le first second)

/-- Nothing leaves the exit of a fragment: it is new, or the exit of the last operand, by recursion
on the expression.
-/
theorem source_ne_exit {base : State} {tree : Regex} {t : Transition Symbol}
    (stored : t ∈ (ofRegex base tree).transitions)
    : t.source ≠ (ofRegex base tree).exit := by
  induction tree generalizing base with
  | literal c =>
      obtain rfl := List.mem_singleton.mp stored
      exact Nat.ne_of_lt (Nat.lt_succ_self base)
  | concat left right _ ihRight =>
      have leftExit := (owns_exit base left).2
      have rightExit := (owns_exit (base + left.stateCount) right).1
      simp only [ofRegex, Transitions.mem_append, Transitions.mem_merge,
        List.mem_singleton] at stored
      rcases stored with (inLeft | inRight) | rfl
      · exact Nat.ne_of_lt (Nat.lt_of_lt_of_le (owns_of_mem inLeft).1.2 rightExit)
      · exact ihRight inRight
      · exact Nat.ne_of_lt (Nat.lt_of_lt_of_le leftExit rightExit)
  | union left right =>
      have leftExit := (owns_exit base left).2
      have rightExit := (owns_exit (base + left.stateCount) right).2
      have inLeft : ∀ u ∈ (ofRegex base left).transitions, u.source < base + left.stateCount :=
        fun u mem => (owns_of_mem mem).1.2
      have inRight : ∀ u ∈ (ofRegex (base + left.stateCount) right).transitions,
          u.source < base + left.stateCount + right.stateCount :=
        fun u mem => (owns_of_mem mem).1.2
      simp only [ofRegex, Transitions.mem_append, Transitions.mem_merge, List.mem_cons,
        List.not_mem_nil, or_false] at stored ⊢
      grind
  | star inner | plus inner =>
      have bodyExit := (owns_exit base inner).2
      have inBody : ∀ u ∈ (ofRegex base inner).transitions, u.source < base + inner.stateCount :=
        fun u mem => (owns_of_mem mem).1.2
      simp only [ofRegex, Transitions.mem_append, List.mem_cons, List.not_mem_nil,
        or_false] at stored ⊢
      grind

/-- Nothing enters the entry of a fragment: it is new, or the entry of the first operand, by
recursion on the expression.
-/
theorem target_ne_entry {base : State} {tree : Regex} {t : Transition Symbol}
    (stored : t ∈ (ofRegex base tree).transitions)
    : t.target ≠ (ofRegex base tree).entry := by
  induction tree generalizing base with
  | literal c =>
      obtain rfl := List.mem_singleton.mp stored
      exact Nat.ne_of_gt (Nat.lt_succ_self base)
  | concat left right ihLeft _ =>
      have leftEntry := (owns_entry base left).2
      have rightEntry := (owns_entry (base + left.stateCount) right).1
      simp only [ofRegex, Transitions.mem_append, Transitions.mem_merge,
        List.mem_singleton] at stored
      rcases stored with (inLeft | inRight) | rfl
      · exact ihLeft inLeft
      · exact Nat.ne_of_gt (Nat.lt_of_lt_of_le leftEntry (owns_of_mem inRight).2.1)
      · exact Nat.ne_of_gt (Nat.lt_of_lt_of_le leftEntry rightEntry)
  | union left right =>
      have leftEntry := (owns_entry base left).2
      have rightEntry := (owns_entry (base + left.stateCount) right).2
      have inLeft : ∀ u ∈ (ofRegex base left).transitions, u.target < base + left.stateCount :=
        fun u mem => (owns_of_mem mem).2.2
      have inRight : ∀ u ∈ (ofRegex (base + left.stateCount) right).transitions,
          u.target < base + left.stateCount + right.stateCount :=
        fun u mem => (owns_of_mem mem).2.2
      simp only [ofRegex, Transitions.mem_append, Transitions.mem_merge, List.mem_cons,
        List.not_mem_nil, or_false] at stored ⊢
      grind
  | star inner | plus inner =>
      have bodyEntry := (owns_entry base inner).2
      have inBody : ∀ u ∈ (ofRegex base inner).transitions, u.target < base + inner.stateCount :=
        fun u mem => (owns_of_mem mem).2.2
      simp only [ofRegex, Transitions.mem_append, List.mem_cons, List.not_mem_nil,
        or_false] at stored ⊢
      grind

-----------------------------------------------------------------------------------------
-- The parts of a fragment
-----------------------------------------------------------------------------------------

/-- Merging parts that branch as they may puts one behind the other, since no transition stands in
both.
-/
theorem toList_merge_of_branching {first second : Transitions Symbol}
    (h : Branching (first.toList ++ second.toList))
    : (first.merge second).toList = first.toList ++ second.toList :=
  eraseDups_of_nodup h.nodup

/-- Operands have states of their own, so no transition of the one starts where one of the other
does.
-/
theorem sourcesApart_operands (base : State) (left right : Regex)
    : SourcesApart (ofRegex base left).transitions.toList
        (ofRegex (base + left.stateCount) right).transitions.toList :=
  fun _ mem _ mem' => Nat.ne_of_lt (Nat.lt_of_lt_of_le (owns_of_mem mem).1.2 (owns_of_mem mem').1.1)

/-- The transitions of every fragment branch as they may, by recursion on the expression: joints
start where nothing has left before.
-/
theorem branching (base : State) (tree : Regex)
    : Branching (ofRegex base tree).transitions.toList := by
  induction tree generalizing base with
  | literal c =>
      refine ⟨by simp [ofRegex], fun q => ?_⟩
      by_cases here : base = q
      · exact Or.inl ⟨base, c, base + 1, by simp [leaving, ofRegex, here]⟩
      · exact Or.inr (by simp [leaving, ofRegex, here])
  | concat left right ihLeft ihRight =>
      have operands := (ihLeft base).append (ihRight _) (sourcesApart_operands base left right)
      have leftExit := (owns_exit base left).2
      simp only [ofRegex, Transitions.append, toList_merge_of_branching operands]
      refine operands.append (.of_silent ?_ ?_ ?_) ?_
      · simp
      · simp
      · exact fun q => Nat.le_succ_of_le (List.length_filter_le _ _)
      · intro t mem u joint
        obtain rfl := List.mem_singleton.mp joint
        rcases List.mem_append.mp mem with inLeft | inRight
        · exact source_ne_exit inLeft
        · exact Nat.ne_of_gt (Nat.lt_of_lt_of_le leftExit (owns_of_mem inRight).1.1)
  | union left right ihLeft ihRight =>
      have operands := (ihLeft base).append (ihRight _) (sourcesApart_operands base left right)
      have leftEntry := (owns_entry base left).2
      have leftExit := (owns_exit base left).2
      have rightEntry := owns_entry (base + left.stateCount) right
      have rightExit := owns_exit (base + left.stateCount) right
      simp only [Owns] at rightEntry rightExit
      simp only [ofRegex, Transitions.append, toList_merge_of_branching operands]
      refine operands.append (.of_silent ?_ ?_ ?_) ?_
      · simp
      · grind
      · grind [leaving]
      · intro t mem u joint
        rcases List.mem_append.mp mem with inLeft | inRight
        · have unused := source_ne_exit inLeft
          have source := (owns_of_mem inLeft).1.2
          grind
        · have unused := source_ne_exit inRight
          have source := (owns_of_mem inRight).1
          simp only [Owns] at source
          grind
  | star inner ih | plus inner ih =>
      have bodyEntry := (owns_entry base inner).2
      have bodyExit := (owns_exit base inner).2
      refine (ih base).append (.of_silent ?_ ?_ ?_) ?_
      · simp
      · grind
      · grind [leaving]
      · intro t mem u joint
        have unused := source_ne_exit mem
        have source := (owns_of_mem mem).1.2
        grind

-----------------------------------------------------------------------------------------
-- How many there are
-----------------------------------------------------------------------------------------

/-- There are two states for each literal, union and repetition, by induction on the expression. -/
theorem stateCount_eq (tree : Regex)
    : tree.stateCount
      = 2 * (tree.nodeCount Head.isLiteral + tree.nodeCount (· = .union)
          + tree.nodeCount (· = .star) + tree.nodeCount (· = .plus)) := by
  induction tree with
  | literal c => simp [Regex.stateCount, Head.isLiteral]
  | star inner ih | plus inner ih =>
      simp [Regex.stateCount, ih, Head.isLiteral]
      omega
  | concat left right ihLeft ihRight | union left right ihLeft ihRight =>
      simp [Regex.stateCount, ihLeft, ihRight, Head.isLiteral]
      omega

/-- Each kind of node adds its own number of transitions, by induction on the expression. -/
theorem size_transitions (base : State) (tree : Regex)
    : (ofRegex base tree).transitions.size
      = tree.nodeCount Head.isLiteral + tree.nodeCount (· = .concat)
        + 4 * tree.nodeCount (· = .union) + 4 * tree.nodeCount (· = .star)
        + 3 * tree.nodeCount (· = .plus) := by
  simp only [Transitions.size]
  induction tree generalizing base with
  | literal c => simp [ofRegex, Head.isLiteral]
  | star inner ih | plus inner ih =>
      simp [ofRegex, Transitions.append, ih, Head.isLiteral]
      omega
  | concat left right ihLeft ihRight | union left right ihLeft ihRight =>
      have operands := (branching base left).append (branching _ right)
        (sourcesApart_operands base left right)
      simp [ofRegex, Transitions.append, toList_merge_of_branching operands, ihLeft, ihRight,
        Head.isLiteral]
      omega

/-- The alphabet are the literals. -/
theorem mem_alphabet_iff {base : State} {tree : Regex} {c : Char}
    : c ∈ (ofRegex base tree).alphabet ↔ .literal c ∈ tree.preorder := by
  induction tree generalizing base with
  | literal d => simp [ofRegex, Regex.preorder]
  | star inner ih | plus inner ih => simp [ofRegex, Regex.preorder, ih]
  | concat left right ihLeft ihRight | union left right ihLeft ihRight =>
      simp [ofRegex, Regex.preorder, ihLeft, ihRight]

-----------------------------------------------------------------------------------------
-- Every state is reached
-----------------------------------------------------------------------------------------

/-- From the state before the body of a repetition some path leads to every state of it, if paths
through the body do.
-/
theorem exists_path_repeated {ts : Transitions Symbol} {base q : Nat} {inner : Regex}
    (through : ∀ r, Owns base inner r → ∃ word, Path ts (ofRegex base inner).entry word r)
    (into : ⟨base + inner.stateCount, .epsilon, (ofRegex base inner).entry⟩ ∈ ts)
    (out : ⟨(ofRegex base inner).exit, .epsilon, base + inner.stateCount + 1⟩ ∈ ts)
    (own : base ≤ q ∧ q < base + (inner.stateCount + 2))
    : ∃ word, Path ts (base + inner.stateCount) word q := by
  obtain ⟨atLeast, below⟩ := own
  rcases Nat.lt_or_ge q (base + inner.stateCount) with inBody | outside
  · obtain ⟨word, path⟩ := through q ⟨atLeast, inBody⟩
    exact ⟨word, .silent into path⟩
  rcases Nat.eq_or_lt_of_le outside with rfl | after
  · exact ⟨[], .nil _⟩
  · obtain rfl : q = base + inner.stateCount + 1 := by omega
    obtain ⟨word, path⟩ := through _ (owns_exit base inner)
    exact ⟨word ++ [], (Path.silent into path).append (.silent out (.nil _))⟩

/-- From the entry of a fragment some path leads to every state, by recursion on the expression: the
exit of an operand is reached, and from there what comes behind it.
-/
theorem exists_path_entry {base q : Nat} {tree : Regex} (owned : Owns base tree q)
    : ∃ word, Path (ofRegex base tree).transitions (ofRegex base tree).entry word q := by
  obtain ⟨atLeast, below⟩ := owned
  induction tree generalizing base q with
  | literal c =>
      simp only [Regex.stateCount] at below
      rcases Nat.eq_or_lt_of_le atLeast with rfl | after
      · exact ⟨[], .nil _⟩
      · obtain rfl : q = base + 1 := by omega
        exact ⟨[c], .char (List.mem_singleton.mpr rfl) (.nil _)⟩
  | concat left right ihLeft ihRight =>
      simp only [Regex.stateCount] at below
      have throughLeft {r : Nat} (owned : Owns base left r)
          : ∃ word, Path (ofRegex base (.concat left right)).transitions
              (ofRegex base left).entry word r := by
        obtain ⟨word, path⟩ := ihLeft owned.1 owned.2
        exact ⟨word, path.mono fun t mem => by simp [ofRegex, mem]⟩
      rcases Nat.lt_or_ge q (base + left.stateCount) with inLeft | inRight
      · exact throughLeft ⟨atLeast, inLeft⟩
      · obtain ⟨front, first⟩ := throughLeft (owns_exit base left)
        obtain ⟨back, second⟩ := ihRight inRight (by omega)
        have onward : Path (ofRegex base (.concat left right)).transitions
            (ofRegex (base + left.stateCount) right).entry back q :=
          second.mono fun t mem => by simp [ofRegex, mem]
        exact ⟨front ++ back, first.append (.silent (by simp [ofRegex]) onward)⟩
  | union left right ihLeft ihRight =>
      simp only [Regex.stateCount] at below
      have throughLeft {r : Nat} (owned : Owns base left r)
          : ∃ word, Path (ofRegex base (.union left right)).transitions
              (base + left.stateCount + right.stateCount) word r := by
        obtain ⟨word, path⟩ := ihLeft owned.1 owned.2
        have inside : Path (ofRegex base (.union left right)).transitions
            (ofRegex base left).entry word r :=
          path.mono fun t mem => by simp [ofRegex, mem]
        exact ⟨word, .silent (by simp [ofRegex]) inside⟩
      rcases Nat.lt_or_ge q (base + left.stateCount) with inLeft | notLeft
      · exact throughLeft ⟨atLeast, inLeft⟩
      rcases Nat.lt_or_ge q (base + left.stateCount + right.stateCount) with inRight | outside
      · obtain ⟨word, path⟩ := ihRight notLeft inRight
        have inside : Path (ofRegex base (.union left right)).transitions
            (ofRegex (base + left.stateCount) right).entry word q :=
          path.mono fun t mem => by simp [ofRegex, mem]
        exact ⟨word, .silent (by simp [ofRegex]) inside⟩
      rcases Nat.eq_or_lt_of_le outside with rfl | join
      · exact ⟨[], .nil _⟩
      · obtain rfl : q = base + left.stateCount + right.stateCount + 1 := by omega
        obtain ⟨word, path⟩ := throughLeft (owns_exit base left)
        exact ⟨word ++ [], path.append (.silent (by simp [ofRegex]) (.nil _))⟩
  | star inner ih | plus inner ih =>
      refine exists_path_repeated (fun r owned => ?_) (by simp [ofRegex]) (by simp [ofRegex])
        ⟨atLeast, below⟩
      obtain ⟨word, path⟩ := ih owned.1 owned.2
      exact ⟨word, path.mono fun t mem => by simp [ofRegex, mem]⟩

end Fragment

namespace Nfa

/-- The transitions and states are those of an automaton that was built from the tree with one pair
of states for each literal, union and repetition.
-/
structure HasShapeOf (nfa : Nfa) (tree : Regex) : Prop where
  stateCount_eq : nfa.stateCount
    = 2 * (tree.nodeCount Regex.Head.isLiteral + tree.nodeCount (· = .union)
        + tree.nodeCount (· = .star) + tree.nodeCount (· = .plus))
  size_eq : nfa.transitions.size
    = tree.nodeCount Regex.Head.isLiteral + tree.nodeCount (· = .concat)
      + 4 * tree.nodeCount (· = .union) + 4 * tree.nodeCount (· = .star)
      + 3 * tree.nodeCount (· = .plus)
  nodup : nfa.transitions.toList.Nodup
  mem_states_iff (q : State) : q ∈ nfa.transitions.states ↔ q < nfa.stateCount
  mem_alphabet_iff (c : Char) : c ∈ nfa.alphabet ↔ .literal c ∈ tree.preorder
  not_entered : ∀ t ∈ nfa.transitions, t.target ≠ nfa.start
  not_left : ∀ t ∈ nfa.transitions, t.source ≠ nfa.accept
  forks (q : State) : Forks (leaving nfa.transitions.toList q)
  reached (q : State) : q < nfa.stateCount → ∃ word, Path nfa.transitions nfa.start word q
  reaches (q : State) : q < nfa.stateCount → ∃ word, Path nfa.transitions q word nfa.accept

/-- A path to another state begins with some transition. -/
theorem mem_states_of_path_of_ne {ts : Transitions Symbol} {p q : State} {word : List Char}
    (path : Path ts p word q) (other : p ≠ q)
    : p ∈ ts.states := by
  cases path with
  | nil => exact absurd rfl other
  | silent first _ | char first _ => exact Transitions.mem_states.mpr ⟨_, first, Or.inl rfl⟩

/-- The transitions mention exactly the states that the automaton owns. -/
theorem mem_states_ofRegex {tree : Regex} {q : State}
    : q ∈ (ofRegex tree).transitions.states ↔ q < (ofRegex tree).stateCount := by
  constructor
  · intro mem
    obtain ⟨t, stored, rfl | rfl⟩ := Transitions.mem_states.mp mem
    · exact (lt_stateCount_of_mem stored).1
    · exact (lt_stateCount_of_mem stored).2
  · intro below
    by_cases accept : q = (ofRegex tree).accept
    · have owned : Fragment.Owns 0 tree q := ⟨Nat.zero_le q, by rwa [Nat.zero_add]⟩
      obtain ⟨_, path⟩ := Fragment.exists_path_entry owned
      refine (mem_states_of_path path).resolve_left fun start => ?_
      exact Fragment.entry_ne_exit 0 tree (start.symm.trans accept)
    · obtain ⟨_, path⟩ := exists_path_accept below
      exact mem_states_of_path_of_ne path accept

/-- The automaton of every expression has two states for each literal, union and repetition, a
number of transitions that the nodes give, each of them once, and states that all lie on the way
from the start, which nothing enters, to the accepting state, which nothing leaves.
-/
theorem ofRegex_hasShapeOf (tree : Regex) : (ofRegex tree).HasShapeOf tree where
  stateCount_eq := Fragment.stateCount_eq tree
  size_eq := Fragment.size_transitions 0 tree
  nodup := (Fragment.branching 0 tree).nodup
  mem_states_iff _ := mem_states_ofRegex
  mem_alphabet_iff _ := Fragment.mem_alphabet_iff
  not_entered _ := Fragment.target_ne_entry
  not_left _ := Fragment.source_ne_exit
  forks := (Fragment.branching 0 tree).forks
  reached q below := Fragment.exists_path_entry ⟨Nat.zero_le q, by rwa [Nat.zero_add]⟩
  reaches _ := exists_path_accept

end Nfa

end Munch
