import Mathlib.Data.List.Induction
import Mathlib.Data.List.Nodup
import Munch.Proofs.CompiledSinks
import Munch.Proofs.SinkStates
import Std.Data.HashSet

/-! Looking up transitions. A relation is stored in columns and searched row by row. For repeated
use its targets are entered into tables under their states and symbols, either all of them or the
first one only. What stands under a state and a symbol in the end is what their own targets have
made, in the order of storage, so tables and columns agree. The order of storage matters where a
state and a symbol have different targets, and only there.
-/

namespace Munch

namespace Transitions

variable {σ : Type}

/-- What is built up from a relation, one transition after the other: what holds of nothing, and is
kept by each transition, holds in the end.
-/
theorem holds_foldl {α : Type} {motive : Transitions σ → α → Prop} {add : α → Transition σ → α}
    {start : α} (nothing : motive ∅ start)
    (kept : ∀ ts built t, motive ts built → motive (ts.push t) (add built t)) (ts : Transitions σ)
    : motive ts (ts.toList.foldl add start) := by
  obtain ⟨items⟩ := ts
  induction items using List.reverseRecOn with
  | nil => exact nothing
  | append_singleton items t ih =>
      rw [List.foldl_append]
      exact kept ⟨items⟩ _ t ih

-----------------------------------------------------------------------------------------
-- Columns
-----------------------------------------------------------------------------------------

/-- The sources of some transitions, their symbols and their targets. -/
structure Columns (σ : Type) where
  sources : List State
  symbols : List σ
  targets : List State

namespace Columns

instance : EmptyCollection (Columns σ) where
  emptyCollection := ⟨[], [], []⟩

/-- Adds a transition at the end of all three columns. -/
def push (columns : Columns σ) (t : Transition σ) : Columns σ where
  sources := columns.sources ++ [t.source]
  symbols := columns.symbols ++ [t.symbol]
  targets := columns.targets ++ [t.target]

/-- The columns side by side. -/
def rows (columns : Columns σ) : List (State × σ × State) :=
  columns.sources.zip (columns.symbols.zip columns.targets)

/-- The targets in the rows with a state and a symbol. -/
def search [DecidableEq σ] (columns : Columns σ) (q : State) (a : σ) : List State :=
  (columns.rows.filter fun (source, symbol, _) => source = q ∧ symbol = a).map fun (_, _, r) => r

/-- The columns of a relation. -/
structure IsStorage (ts : Transitions σ) (columns : Columns σ) : Prop where
  sources : columns.sources = ts.toList.map Transition.source
  symbols : columns.symbols = ts.toList.map Transition.symbol
  targets : columns.targets = ts.toList.map Transition.target

/-- Columns of a relation to each of which an entry is added are the columns of the relation with
one more transition.
-/
theorem IsStorage.push {ts : Transitions σ} {columns : Columns σ} (h : IsStorage ts columns)
    (t : Transition σ)
    : IsStorage (ts.push t) (columns.push t) where
  sources := by simp only [Columns.push, Transitions.push, h.sources, List.map_append, List.map]
  symbols := by simp only [Columns.push, Transitions.push, h.symbols, List.map_append, List.map]
  targets := by simp only [Columns.push, Transitions.push, h.targets, List.map_append, List.map]

/-- Adding transition after transition gives the columns of the relation. -/
theorem isStorage_foldl_push (ts : Transitions σ) : IsStorage ts (ts.toList.foldl push ∅) :=
  holds_foldl ⟨rfl, rfl, rfl⟩ (fun _ _ t storage => storage.push t) ts

/-- The rows of the columns are the transitions, so it makes no difference which are searched. -/
theorem IsStorage.search_eq [DecidableEq σ] {ts : Transitions σ} {columns : Columns σ}
    (h : IsStorage ts columns)
    : columns.search = ts.targets := by
  have rows : columns.rows = ts.toList.map fun t => (t.source, t.symbol, t.target) := by
    rw [Columns.rows, h.sources, h.symbols, h.targets, List.zip_map', List.zip_map']
  funext q a
  rw [search, rows, List.filter_map, List.map_map, Transitions.targets]
  simp only [Function.comp_def, Transition.key, Prod.mk.injEq]

end Columns

-----------------------------------------------------------------------------------------
-- Tables
-----------------------------------------------------------------------------------------

section Tables

variable [DecidableEq σ]

/-- One more transition adds its target where it is looked up, and nowhere else. -/
theorem targets_push (ts : Transitions σ) (t : Transition σ) (q : State) (a : σ)
    : (ts.push t).targets q a
      = if t.key = (q, a) then ts.targets q a ++ [t.target] else ts.targets q a := by
  rw [targets, push, List.filter_append, List.map_append, ← targets]
  split <;> simp [*]

variable [Hashable σ]

/-- Enters a target under the state and symbol of its transition, in view of what is there. -/
def enter {α : Type} (add : Option α → State → α) (table : Std.HashMap (State × σ) α)
    (t : Transition σ)
    : Std.HashMap (State × σ) α :=
  table.alter t.key fun known => some (add known t.target)

/-- All targets entered so far, and one more behind them. -/
def withLast (known : Option (List State)) (r : State) : List State :=
  known.getD [] ++ [r]

/-- The target entered before any other. -/
def orFirst (known : Option State) (r : State) : State :=
  known.getD r

/-- Under a state and a symbol stands what their own targets make, one after the other, whatever is
entered in between.
-/
theorem getElem?_foldl_enter {α : Type} (add : Option α → State → α) (ts : Transitions σ)
    (q : State) (a : σ)
    : (ts.toList.foldl (enter add) ∅)[(q, a)]?
      = (ts.targets q a).foldl (fun known r => some (add known r)) none := by
  refine holds_foldl
    (motive := fun ts table =>
      table[(q, a)]? = (ts.targets q a).foldl (fun known r => some (add known r)) none)
    Std.HashMap.getElem?_empty (fun ts table t entered => ?_) ts
  rw [enter, Std.HashMap.getElem?_alter, targets_push]
  by_cases same : t.key = (q, a)
  · simp only [same, BEq.rfl, if_true, List.foldl_append, List.foldl_cons, List.foldl_nil, entered]
  · simp only [same, beq_iff_eq, if_false, entered]

/-- Entered one after the other, targets stand behind those that are there already, in order. By
induction on the targets.
-/
theorem foldl_withLast (known : Option (List State)) (targets : List State)
    : (targets.foldl (fun known r => some (withLast known r)) known).getD []
      = known.getD [] ++ targets := by
  induction targets generalizing known with
  | nil => simp
  | cons r targets ih =>
      rw [List.foldl_cons, ih, withLast]
      simp

/-- Of targets that are entered only where there is none the first one stays, by induction on the
targets.
-/
theorem foldl_orFirst (known : Option State) (targets : List State)
    : targets.foldl (fun known r => some (orFirst known r)) known = known.or targets.head? := by
  induction targets generalizing known with
  | nil => simp
  | cons r targets ih =>
      rw [List.foldl_cons, ih, orFirst]
      cases known <;> rfl

/-- The table of all targets has those that a search finds, in the same order and multiplicity. -/
theorem getD_foldl_withLast (ts : Transitions σ) (q : State) (a : σ)
    : (ts.toList.foldl (enter withLast) ∅).getD (q, a) [] = ts.targets q a := by
  rw [Std.HashMap.getD_eq_getD_getElem?, getElem?_foldl_enter, foldl_withLast]
  rfl

/-- The table of first targets tells the first target that is stored. -/
theorem getElem?_foldl_orFirst (ts : Transitions σ) (q : State) (a : σ)
    : (ts.toList.foldl (enter orFirst) ∅)[(q, a)]? = (ts.targets q a).head? := by
  rw [getElem?_foldl_enter, foldl_orFirst]
  rfl

end Tables

-----------------------------------------------------------------------------------------
-- One target for each state and symbol
-----------------------------------------------------------------------------------------

section Deterministic

variable {ts : Transitions σ}

/-- Transitions with the same state and symbol have the same target; they may be repeated. -/
def IsFunctional (ts : Transitions σ) : Prop :=
  ∀ ⦃q a r s⦄, ⟨q, a, r⟩ ∈ ts → ⟨q, a, s⟩ ∈ ts → r = s

/-- Without two transitions that share state and symbol there are none that differ in their targets.
-/
theorem IsDeterministic.isFunctional (h : ts.IsDeterministic) : ts.IsFunctional := by
  intro q a r s first second
  have same := List.inj_on_of_nodup_map h first second rfl
  injection same

variable [DecidableEq σ]

/-- Goes along the transitions as long as each state and symbol is seen for the first time. -/
def allNew [Hashable σ] (seen : Std.HashSet (State × σ)) : List (Transition σ) → Bool
  | [] => true
  | t :: rest =>
      let visit := seen.containsThenInsert t.key
      !visit.1 && allNew visit.2 rest

/-- By induction on the transitions, whatever has been seen before. -/
theorem allNew_iff [Hashable σ] {seen : Std.HashSet (State × σ)} {items : List (Transition σ)}
    : allNew seen items = true
      ↔ (items.map Transition.key).Nodup ∧ ∀ t ∈ items, t.key ∉ seen := by
  induction items generalizing seen with
  | nil => simp [allNew]
  | cons t rest ih =>
      have others : (∀ u ∈ rest, u.key ∉ seen.insert t.key)
          ↔ t.key ∉ rest.map Transition.key ∧ ∀ u ∈ rest, u.key ∉ seen := by
        simp only [Std.HashSet.mem_insert, List.mem_map, beq_iff_eq]
        grind
      simp only [allNew, Std.HashSet.containsThenInsert_fst, Std.HashSet.containsThenInsert_snd,
        Bool.and_eq_true, Bool.not_eq_true', Std.HashSet.contains_eq_false_iff_not_mem, ih, others,
        List.map_cons, List.nodup_cons, List.forall_mem_cons]
      tauto

/-- The walk that remembers what it has seen gets to the end exactly if no state and symbol occur
twice.
-/
theorem allNew_empty_iff [Hashable σ] : allNew ∅ ts.toList = true ↔ ts.IsDeterministic := by
  rw [allNew_iff, IsDeterministic]
  simp

/-- A state has as many targets on a symbol as the two occur together. -/
theorem length_targets (ts : Transitions σ) (q : State) (a : σ)
    : (ts.targets q a).length = (ts.toList.map Transition.key).count (q, a) := by
  rw [targets, List.length_map, List.count, List.countP_map, List.countP_eq_length_filter]
  simp only [Function.comp_def, beq_eq_decide]

/-- A relation is deterministic if no look-up has more than one result. -/
theorem isDeterministic_iff_length_targets
    : ts.IsDeterministic ↔ ∀ q a, (ts.targets q a).length ≤ 1 := by
  simp only [IsDeterministic, List.nodup_iff_count_le_one, length_targets, Prod.forall]

/-- The first transition of all is the first for its state and symbol. -/
theorem head?_targets_cons (t : Transition σ) (items : List (Transition σ))
    : ((mk (t :: items)).targets t.source t.symbol).head? = some t.target := by
  simp [targets, Transition.key]

/-- The first target that is stored is the only one then. -/
theorem IsFunctional.head?_targets_eq_some_iff (h : ts.IsFunctional) {q r : State} {a : σ}
    : (ts.targets q a).head? = some r ↔ ⟨q, a, r⟩ ∈ ts := by
  rw [← mem_targets]
  constructor
  · exact List.mem_of_head?
  · intro mem
    have found : (ts.targets q a).head?.isSome := List.isSome_head?.mpr (List.ne_nil_of_mem mem)
    obtain ⟨s, first⟩ := Option.isSome_iff_exists.mp found
    have stored := mem_targets.mp (List.mem_of_head? first)
    rw [first, h stored (mem_targets.mp mem)]

end Deterministic

end Transitions

-----------------------------------------------------------------------------------------
-- The order of storage
-----------------------------------------------------------------------------------------

namespace Dfa

/-- The automaton with its transitions stored in another order. -/
def reorder (dfa : Dfa) (items : List (Transition Char)) (same : items.Perm dfa.transitions.toList)
    : Dfa where
  alphabet := dfa.alphabet
  label := dfa.label
  start := dfa.start
  finals := dfa.finals
  states := dfa.states
  transitions := ⟨items⟩
  sinks := dfa.sinks
  target_mem_sinks := fun t stored => dfa.target_mem_sinks t (same.mem_iff.mp stored)
  not_mem_sinks_of_mem_finals := dfa.not_mem_sinks_of_mem_finals

/-- To make an automaton of the transitions in another order, its sinks found anew, is to reorder
it.
-/
theorem reorder_ofParts {alphabet : List Char} {label : String} {start : State} {finals : StateSet}
    {ts : Transitions Char} {items : List (Transition Char)} (same : items.Perm ts.toList)
    : (ofParts alphabet label start finals ts).reorder items same
      = ofParts alphabet label start finals ⟨items⟩ := by
  have stored {t : Transition Char} : t ∈ Transitions.mk items ↔ t ∈ ts := same.mem_iff
  have links : (Transitions.mk items).Links = ts.Links := by
    funext p q
    simp only [Transitions.Links, stored]
  have states : (ofParts alphabet label start finals ts).states
      = (ofParts alphabet label start finals ⟨items⟩).states := by
    ext q
    simp only [mem_states_ofParts, stored]
  refine eq_of_parts rfl rfl rfl rfl states rfl ?_
  ext q
  refine mem_unproductive.trans (Iff.trans ?_ mem_unproductive.symm)
  simp only [Transitions.reaches_successors_iff, links]
  exact and_congr (SortedSet.ext_iff.mp states q) Iff.rfl

variable {dfa : Dfa}

/-- Every stored transition is the one that is followed, when it is stored first. -/
theorem exists_reorder_step {t : Transition Char} (stored : t ∈ dfa.transitions)
    : ∃ items same, (dfa.reorder items same).step t.source t.symbol = some t.target := by
  refine ⟨t :: dfa.transitions.toList.erase t, (List.perm_cons_erase stored).symm, ?_⟩
  rw [step_eq_head?]
  exact Transitions.head?_targets_cons t _

/-- The order of storage makes no difference to single steps exactly if transitions with the same
state and symbol have the same target.
-/
theorem step_reorder_iff
    : (∀ items same, (dfa.reorder items same).step = dfa.step)
      ↔ dfa.transitions.IsFunctional := by
  constructor
  · intro unchanged q a r s first second
    have followed {t : Transition Char} (stored : t ∈ dfa.transitions)
        : dfa.step t.source t.symbol = some t.target := by
      obtain ⟨items, same, step⟩ := exists_reorder_step stored
      rw [← unchanged items same, step]
    exact Option.some.inj ((followed first).symm.trans (followed second))
  · intro functional items same
    have functional' : (dfa.reorder items same).transitions.IsFunctional :=
      fun q a r s first second => functional (same.mem_iff.mp first) (same.mem_iff.mp second)
    funext q c
    ext r
    rw [step_eq_head?, step_eq_head?, functional.head?_targets_eq_some_iff,
      functional'.head?_targets_eq_some_iff]
    exact same.mem_iff

/-- Where the order of storage changes no step, it changes no run. -/
theorem run_reorder {items : List (Transition Char)} {same : items.Perm dfa.transitions.toList}
    (steps : (dfa.reorder items same).step = dfa.step)
    : (dfa.reorder items same).run = dfa.run := by
  funext word
  rw [run, run, runFrom_eq_of_step_eq steps]
  rfl

/-- Where the order of storage changes no step, the same words are accepted. -/
theorem accepts_reorder {items : List (Transition Char)}
    {same : items.Perm dfa.transitions.toList} (steps : (dfa.reorder items same).step = dfa.step)
    : (dfa.reorder items same).accepts = dfa.accepts := by
  funext word
  rw [accepts, accepts, run_reorder steps]
  rfl

end Dfa

namespace Transitions

/-- Whatever transitions are stored, one after the other: a search through the columns, the table of
all targets and the table of first targets agree. So an automaton finds by its index the targets
that a search finds, in the same order and multiplicity, and a `Dfa` steps to the first of them. A
relation is deterministic exactly if no search finds more than one target. With such a relation a
`Dfa` steps, runs and accepts as before when the transitions are stored in another order, no matter
whether its sinks are kept or found anew.
-/
theorem lookups_exact {σ : Type} [DecidableEq σ] [Hashable σ] (ts : Transitions σ) (nfa : Nfa)
    (dfa : Dfa)
    : (∀ q a,
          (ts.toList.foldl Columns.push ∅).search q a = ts.targets q a
          ∧ (ts.toList.foldl (enter withLast) ∅).getD (q, a) [] = ts.targets q a
          ∧ (ts.toList.foldl (enter orFirst) ∅)[(q, a)]? = (ts.targets q a).head?)
      ∧ (∀ q a, nfa.targets q a = nfa.transitions.targets q a)
      ∧ (∀ q c, dfa.step q c = (dfa.transitions.targets q c).head?)
      ∧ (allNew ∅ ts.toList = true ↔ ts.IsDeterministic)
      ∧ (ts.IsDeterministic ↔ ∀ q a, (ts.targets q a).length ≤ 1)
      ∧ (dfa.transitions.IsDeterministic
          → ∀ items same,
              (dfa.reorder items same).step = dfa.step
              ∧ (dfa.reorder items same).run = dfa.run
              ∧ (dfa.reorder items same).accepts = dfa.accepts)
      ∧ ∀ alphabet label start finals moves items (same : items.Perm moves.toList),
          (Dfa.ofParts alphabet label start finals moves).reorder items same
            = Dfa.ofParts alphabet label start finals ⟨items⟩ := by
  refine ⟨fun q a => ⟨?_, ?_, ?_⟩, fun q a => ?_, dfa.step_eq_head?, ?_, ?_, ?_, ?_⟩
  · rw [(Columns.isStorage_foldl_push ts).search_eq]
  · exact getD_foldl_withLast ts q a
  · exact getElem?_foldl_orFirst ts q a
  · rw [nfa.targets_eq]
  · exact allNew_empty_iff
  · exact isDeterministic_iff_length_targets
  · intro deterministic items same
    have steps := Dfa.step_reorder_iff.mpr deterministic.isFunctional items same
    exact ⟨steps, Dfa.run_reorder steps, Dfa.accepts_reorder steps⟩
  · intro alphabet label start finals moves items same
    exact Dfa.reorder_ofParts same

/-- Reads `a`, and any number of times `a` or `ba` behind it. -/
def turns : Transitions Char :=
  ⟨[⟨0, 'a', 1⟩, ⟨1, 'b', 0⟩, ⟨1, 'a', 1⟩]⟩

/-- In another order they accept the same words, `aba` being one of them. -/
theorem lookups_exact_turns
    : let items : List (Transition Char) := [⟨1, 'a', 1⟩, ⟨0, 'a', 1⟩, ⟨1, 'b', 0⟩]
      turns.IsDeterministic
      ∧ items.Perm turns.toList
      ∧ (Dfa.ofParts ['a', 'b'] "A" 0 {1} ⟨items⟩).accepts
        = (Dfa.ofParts ['a', 'b'] "A" 0 {1} turns).accepts
      ∧ (Dfa.ofParts ['a', 'b'] "A" 0 {1} ⟨items⟩).accepts ['a', 'b', 'a'] = true := by
  intro items
  have deterministic : turns.IsDeterministic := by decide
  have same : items.Perm turns.toList := by decide
  obtain ⟨_, _, _, _, _, unchanged, remade⟩ :=
    lookups_exact turns (.ofRegex (.literal 'a')) (.ofParts ['a', 'b'] "A" 0 {1} turns)
  obtain ⟨_, _, accepts⟩ := unchanged deterministic items same
  rw [remade] at accepts
  refine ⟨deterministic, same, accepts, ?_⟩
  rw [accepts]
  cbv

end Transitions

end Munch
