import Munch.SortedSet
import Munch.Discovery
import Std.Data.HashMap

/-! The transition relation of an automaton, as the list of its transitions in storage order, with
two hashed indexes of it. The indexes say nothing new: `getD_index` and `getElem?_firstTargets`
state them by the linear search `targets`.
-/

namespace Munch

/-- The number of a state. -/
abbrev State := Nat

/-- A step from one state to another on a symbol. -/
structure Transition (σ : Type) where
  source : State
  symbol : σ
  target : State
  deriving DecidableEq

/-- The state and the symbol at which a transition is looked up. -/
def Transition.key {σ : Type} (t : Transition σ) : State × σ :=
  (t.source, t.symbol)

/-- The order of transitions: by source, then by symbol, then by target. -/
def Transition.le {σ : Type} [Ranked σ] (s t : Transition σ) : Bool :=
  s.source < t.source
    || s.source = t.source
      && (rank s.symbol < rank t.symbol || rank s.symbol = rank t.symbol && s.target ≤ t.target)

/-- A transition relation. A state and a symbol may have any number of targets, and the same
transition may occur more than once.
-/
structure Transitions (σ : Type) where
  toList : List (Transition σ)
  deriving DecidableEq

namespace Transitions

variable {σ : Type}

instance : EmptyCollection (Transitions σ) where
  emptyCollection := ⟨[]⟩

instance : Membership (Transition σ) (Transitions σ) where
  mem ts t := t ∈ ts.toList

/-- A transition is stored if it is in the list. -/
theorem mem_toList {ts : Transitions σ} {t : Transition σ} : t ∈ ts.toList ↔ t ∈ ts := Iff.rfl

/-- How many transitions are stored. -/
def size (ts : Transitions σ) : Nat := ts.toList.length

/-- Stores one more transition, after all others. -/
def push (ts : Transitions σ) (t : Transition σ) : Transitions σ :=
  ⟨ts.toList ++ [t]⟩

/-- Stores more transitions, after all others. -/
def append (ts : Transitions σ) (more : List (Transition σ)) : Transitions σ :=
  ⟨ts.toList ++ more⟩

/-- Appending stores further transitions and removes none. -/
@[simp, grind =]
theorem mem_append {ts : Transitions σ} {more : List (Transition σ)} {t : Transition σ}
    : t ∈ ts.append more ↔ t ∈ ts ∨ t ∈ more :=
  List.mem_append

/-- Every transition the other way round. -/
def reverse (ts : Transitions σ) : Transitions σ :=
  ⟨ts.toList.map fun t => ⟨t.target, t.symbol, t.source⟩⟩

/-- Turning every transition round twice leaves the relation as it is, storage order included. -/
@[simp]
theorem reverse_reverse (ts : Transitions σ) : ts.reverse.reverse = ts := by
  simp [reverse, Function.comp_def]

/-- Every state replaced by another one. -/
def remap (rename : State → State) (ts : Transitions σ) : Transitions σ :=
  ⟨ts.toList.map fun t => ⟨rename t.source, t.symbol, rename t.target⟩⟩

/-- Every transition of the renamed relation comes from a stored one. -/
theorem mem_remap {rename : State → State} {ts : Transitions σ} {t : Transition σ}
    : t ∈ ts.remap rename ↔ ∃ s ∈ ts, ⟨rename s.source, s.symbol, rename s.target⟩ = t :=
  List.mem_map

/-- The replacement of states by a list of pairs; the first pair of a state counts, and a state
without a pair stays.
-/
def substitute (entries : List (State × State)) (state : State) : State :=
  (entries.lookup state).getD state

/-- Both ends of every transition. -/
def endpoints (ts : Transitions σ) : List State :=
  ts.toList.flatMap fun t => [t.source, t.target]

/-- The states at either end of a transition. -/
def states (ts : Transitions σ) : SortedSet State :=
  .ofList ts.endpoints

/-- The states are the sources and the targets of the stored transitions. -/
theorem mem_states {ts : Transitions σ} {q : State}
    : q ∈ ts.states ↔ ∃ t ∈ ts, q = t.source ∨ q = t.target := by
  simp [states, endpoints, ← mem_toList]

/-- The targets of all transitions that leave a state, in storage order. -/
def successors (ts : Transitions σ) (state : State) : List State :=
  (ts.toList.filter (·.source = state)).map Transition.target

/-- The successors of a state are the targets of its transitions, on whatever symbol. -/
theorem mem_successors {ts : Transitions σ} {q r : State}
    : r ∈ ts.successors q ↔ ∃ t ∈ ts, t.source = q ∧ t.target = r := by
  simp [successors, ← mem_toList, and_assoc]

/-- The states that lead to a state by one transition, in storage order. -/
def predecessors (ts : Transitions σ) (state : State) : List State :=
  (ts.toList.filter (·.target = state)).map Transition.source

/-- The predecessors of a state are the sources of the transitions that lead to it. -/
theorem mem_predecessors {ts : Transitions σ} {q r : State}
    : r ∈ ts.predecessors q ↔ ∃ t ∈ ts, t.target = q ∧ t.source = r := by
  simp [predecessors, ← mem_toList, and_assoc]

/-- The successors in the reversed relation are the predecessors, in the same order. -/
theorem successors_reverse (ts : Transitions σ) : ts.reverse.successors = ts.predecessors := by
  funext q
  simp [reverse, successors, predecessors, List.filter_map, Function.comp_def]

/-- A way along predecessors is one along successors, turned. -/
theorem reaches_predecessors_iff {ts : Transitions σ} {p q : State}
    : Reaches ts.predecessors q p ↔ Reaches ts.successors p q := by
  constructor
  · refine fun way => way.turn fun q p first => ?_
    obtain ⟨t, mem, target, source⟩ := mem_predecessors.mp first
    exact mem_successors.mpr ⟨t, mem, source, target⟩
  · refine fun way => way.turn fun p q first => ?_
    obtain ⟨t, mem, source, target⟩ := mem_successors.mp first
    exact mem_predecessors.mpr ⟨t, mem, target, source⟩

/-- All successors are among the ends of the stored transitions. -/
theorem finitelyBranching_successors (ts : Transitions σ) : FinitelyBranching ts.successors :=
  ⟨ts.endpoints, fun q r h => by
    obtain ⟨t, mem, _, rfl⟩ := mem_successors.mp h
    exact List.mem_flatMap.mpr ⟨t, mem, by simp⟩⟩

/-- All predecessors are among the ends of the stored transitions. -/
theorem finitelyBranching_predecessors (ts : Transitions σ) : FinitelyBranching ts.predecessors :=
  ⟨ts.endpoints, fun q r h => by
    obtain ⟨t, mem, _, rfl⟩ := mem_predecessors.mp h
    exact List.mem_flatMap.mpr ⟨t, mem, by simp⟩⟩

/-- The symbols on the transitions. -/
def alphabet [Ranked σ] (ts : Transitions σ) : SortedSet σ :=
  .ofList (ts.toList.map Transition.symbol)

/-- The transitions in the order of sources, symbols and targets. -/
def sort [Ranked σ] (ts : Transitions σ) : Transitions σ :=
  ⟨ts.toList.mergeSort Transition.le⟩

variable [DecidableEq σ]

/-- The targets of the transitions that leave a state on a symbol, in storage order. -/
def targets (ts : Transitions σ) (state : State) (symbol : σ) : List State :=
  (ts.toList.filter (·.key = (state, symbol))).map Transition.target

/-- Look-up finds the targets of exactly the transitions that are stored. -/
theorem mem_targets {ts : Transitions σ} {q r : State} {a : σ}
    : r ∈ ts.targets q a ↔ ⟨q, a, r⟩ ∈ ts := by
  simp only [targets, Transition.key, List.mem_map, List.mem_filter, decide_eq_true_eq,
    Prod.mk.injEq, mem_toList]
  constructor
  · rintro ⟨⟨_, _, _⟩, ⟨mem, rfl, rfl⟩, rfl⟩
    exact mem
  · exact fun mem => ⟨_, ⟨mem, rfl, rfl⟩, rfl⟩

/-- The transitions of two relations, each once, in the order in which they occur first. -/
def merge (ts us : Transitions σ) : Transitions σ :=
  ⟨(ts.toList ++ us.toList).eraseDups⟩

/-- Merging keeps the transitions of both relations and adds none. -/
@[simp, grind =]
theorem mem_merge {ts us : Transitions σ} {t : Transition σ}
    : t ∈ ts.merge us ↔ t ∈ ts ∨ t ∈ us := by
  simp [merge, ← mem_toList]

/-- No state has two transitions on the same symbol. -/
def IsDeterministic (ts : Transitions σ) : Prop :=
  (ts.toList.map Transition.key).Nodup

instance (ts : Transitions σ) : Decidable ts.IsDeterministic :=
  inferInstanceAs (Decidable (List.Nodup _))

/-- The targets of each state and symbol that has any, in the order of states and symbols. -/
def groups [Ranked σ] (ts : Transitions σ) : List ((State × σ) × List State) :=
  (ts.sort.toList.map Transition.key).eraseDups.map fun key => (key, ts.targets key.1 key.2)

variable [Hashable σ]

/-- The targets of each state and symbol, hashed. -/
def index (ts : Transitions σ) : Std.HashMap (State × σ) (List State) :=
  ts.toList.foldr (fun t map => map.alter t.key fun rest => some (t.target :: rest.getD [])) ∅

/-- The index finds what the linear search finds, in the same order and multiplicity. -/
theorem getD_index (ts : Transitions σ) (q : State) (a : σ)
    : ts.index.getD (q, a) [] = ts.targets q a := by
  obtain ⟨items⟩ := ts
  unfold index targets
  induction items with
  | nil => simp
  | cons t rest ih =>
      simp only [List.foldr_cons, Std.HashMap.getD_alter, List.filter_cons, beq_iff_eq,
        decide_eq_true_eq]
      split
      · rename_i same
        simp [← ih, same, Std.HashMap.getD_eq_getD_getElem?]
      · exact ih

/-- The first target of each state and symbol that has any, hashed. -/
def firstTargets (ts : Transitions σ) : Std.HashMap (State × σ) State :=
  ts.toList.foldr (fun t map => map.insert t.key t.target) ∅

/-- Where several transitions share a state and a symbol, the first one counts. -/
theorem getElem?_firstTargets (ts : Transitions σ) (q : State) (a : σ)
    : ts.firstTargets[(q, a)]? = (ts.targets q a).head? := by
  obtain ⟨items⟩ := ts
  unfold firstTargets targets
  induction items with
  | nil => simp
  | cons t rest ih =>
      simp only [List.foldr_cons, Std.HashMap.getElem?_insert, List.filter_cons, beq_iff_eq,
        decide_eq_true_eq]
      split
      · simp
      · exact ih

end Transitions

end Munch
