/-! Breadth-first discovery: all that can be reached from some roots by a successor function with
finitely many results, each element once and in the order in which it is found first. The main
statements are `mem_discover` (exactly the reachable elements are found) and `nodup_discover` (each
of them once).
-/

namespace Munch

variable {α : Type}

/-- A way from one element to another along zero or more successor steps. -/
inductive Reaches (next : α → List α) : α → α → Prop
  | refl (a : α) : Reaches next a a
  | step {a b c : α} (first : b ∈ next a) (rest : Reaches next b c) : Reaches next a c

namespace Reaches

variable {next : α → List α}

/-- One step is a way. -/
theorem single {a b : α} (h : b ∈ next a) : Reaches next a b := .step h (.refl b)

/-- Two ways with an end in common make one, by induction on the first. -/
theorem trans {a b c : α} (h : Reaches next a b) (h' : Reaches next b c) : Reaches next a c := by
  induction h with
  | refl => exact h'
  | step first _ ih => exact .step first (ih h')

/-- A way goes on by one more step at its end. -/
theorem snoc {a b c : α} (h : Reaches next a b) (last : c ∈ next b) : Reaches next a c :=
  h.trans (.single last)

/-- A way each of whose steps has a turned one leads back along these. -/
theorem turn {before : α → List α} {a b : α} (h : Reaches next a b)
    (back : ∀ a b, b ∈ next a → a ∈ before b)
    : Reaches before b a := by
  induction h with
  | refl a => exact .refl a
  | step first _ ih => exact ih.snoc (back _ _ first)

/-- What every step keeps is kept along the way. -/
theorem keeps {P : α → Prop} {a b : α} (h : Reaches next a b)
    (kept : ∀ a b, b ∈ next a → P a → P b)
    : P a → P b := by
  induction h with
  | refl => exact id
  | step first _ ih => exact fun here => ih (kept _ _ first here)

end Reaches

/-- The successors of all elements together are among finitely many elements. -/
def FinitelyBranching (next : α → List α) : Prop :=
  ∃ range : List α, ∀ a, ∀ b ∈ next a, b ∈ range

/-- With its repetitions erased a list has none: its head is dropped from the rest before that is
erased in turn.
-/
theorem nodup_eraseDups [BEq α] [LawfulBEq α] (items : List α) : items.eraseDups.Nodup := by
  match items with
  | [] => simp
  | a :: rest =>
      rw [List.eraseDups_cons, List.nodup_cons]
      exact ⟨by simp, nodup_eraseDups _⟩
  termination_by items.length
  decreasing_by
    have := List.length_filter_le (fun b => !b == a) rest
    simp only [List.length_cons]
    omega

/-- A test that is passed less often than another and never without it passes shorter lists. -/
theorem length_filter_lt {keep also : α → Bool} {items : List α} {a : α} (mem : a ∈ items)
    (dropped : keep a = false) (kept : also a = true) (implies : ∀ b, keep b → also b)
    : (items.filter keep).length < (items.filter also).length := by
  induction items with
  | nil => simp at mem
  | cons b rest ih =>
      have atMost : (rest.filter keep).length ≤ (rest.filter also).length := by
        simpa [List.countP_eq_length_filter] using List.countP_mono_left fun c _ => implies c
      rcases List.mem_cons.mp mem with rfl | mem
      · simp only [List.filter_cons, dropped, kept]
        simpa using Nat.lt_succ_of_le atMost
      · have := ih mem
        have := implies b
        simp only [List.filter_cons]
        grind

variable [DecidableEq α]

/-- The successors of an element that are not known yet, each once. -/
def newcomers (next : α → List α) (known : List α) (a : α) : List α :=
  ((next a).filter (· ∉ known)).eraseDups

/-- The newcomers of an element are its successors that are not known. -/
theorem mem_newcomers {next : α → List α} {known : List α} {a b : α}
    : b ∈ newcomers next known a ↔ b ∈ next a ∧ b ∉ known := by
  simp [newcomers]

/-- Expands the pending elements one after the other, the first one first, and puts what each
of them newly reaches at the end of the queue. -/
def explore (next : α → List α) (finite : FinitelyBranching next) (explored pending : List α)
    : List α :=
  match pending with
  | [] => explored
  | a :: rest =>
      explore next finite (explored ++ [a]) (rest ++ newcomers next (explored ++ a :: rest) a)
  termination_by
    ((finite.choose.filter (· ∉ explored ++ pending)).length, pending.length)
  decreasing_by
    cases fresh : newcomers next (explored ++ a :: rest) a with
    | nil =>
        have same (b : α) : b ∉ explored ++ [a] ++ (rest ++ []) ↔ b ∉ explored ++ a :: rest := by
          simp
        simp only [same]
        exact Prod.Lex.right _ (by simp)
    | cons b more =>
        have found : b ∈ newcomers next (explored ++ a :: rest) a := by simp [fresh]
        obtain ⟨reached, unknown⟩ := mem_newcomers.mp found
        refine Prod.Lex.left _ _ (length_filter_lt (finite.choose_spec a b reached) ?_ ?_ ?_)
        · simp
        · simpa using unknown
        · simp only [List.mem_append, List.mem_cons, decide_eq_true_eq]
          grind

/-- All that the roots reach, in the order of first discovery. -/
def discover (next : α → List α) (finite : FinitelyBranching next) (roots : List α) : List α :=
  explore next finite [] roots.eraseDups

variable {next : α → List α} {finite : FinitelyBranching next}

/-- Exploring leaves what is explored and what is pending where it is, and only adds behind it. -/
theorem isPrefix_explore {explored pending : List α}
    : explored ++ pending <+: explore next finite explored pending := by
  fun_induction explore next finite explored pending with
  | case1 => simp
  | case2 explored a rest ih =>
      refine .trans ⟨newcomers next (explored ++ a :: rest) a, ?_⟩ ih
      simp

/-- Nothing is found twice, as long as nothing stands twice at the beginning: newcomers are unknown,
and each of them comes once.
-/
theorem nodup_explore {explored pending : List α} (h : (explored ++ pending).Nodup)
    : (explore next finite explored pending).Nodup := by
  fun_induction explore next finite explored pending with
  | case1 => simpa using h
  | case2 explored a rest ih =>
      refine ih ?_
      have split : explored ++ [a] ++ (rest ++ newcomers next (explored ++ a :: rest) a)
          = (explored ++ a :: rest) ++ newcomers next (explored ++ a :: rest) a := by simp
      rw [split, List.nodup_append]
      refine ⟨h, nodup_eraseDups _, fun b known c fresh same => ?_⟩
      exact (mem_newcomers.mp fresh).2 (same ▸ known)

/-- Nothing is found but what the known elements reach. -/
theorem exists_reaches_of_mem_explore {explored pending : List α} {b : α}
    (h : b ∈ explore next finite explored pending)
    : ∃ a ∈ explored ++ pending, Reaches next a b := by
  fun_induction explore next finite explored pending with
  | case1 explored => exact ⟨b, by simpa using h, .refl b⟩
  | case2 explored a rest ih =>
      obtain ⟨c, known, way⟩ := ih h
      by_cases fresh : c ∈ newcomers next (explored ++ a :: rest) a
      · exact ⟨a, by simp, .step (mem_newcomers.mp fresh).1 way⟩
      · exact ⟨c, by simp at known; grind, way⟩

/-- With what is explored before, the outcome is closed under successors. -/
theorem explore_closed {explored pending : List α}
    (closed : ∀ a ∈ explored, ∀ b ∈ next a, b ∈ explored ++ pending)
    : ∀ a ∈ explore next finite explored pending, ∀ b ∈ next a,
        b ∈ explore next finite explored pending := by
  fun_induction explore next finite explored pending with
  | case1 => simpa using closed
  | case2 explored a rest ih =>
      refine ih fun c known b reached => ?_
      by_cases old : b ∈ explored ++ a :: rest
      · simp at old ⊢
        grind
      · have : c = a := by
          rcases List.mem_append.mp known with known | known
          · exact absurd (closed c known b reached) old
          · simpa using known
        subst this
        have := mem_newcomers.mpr ⟨reached, old⟩
        simp [this]

/-- Exactly what the roots reach is discovered. -/
theorem mem_discover {roots : List α} {b : α}
    : b ∈ discover next finite roots ↔ ∃ a ∈ roots, Reaches next a b := by
  constructor
  · intro h
    obtain ⟨a, known, way⟩ := exists_reaches_of_mem_explore h
    exact ⟨a, by simpa using known, way⟩
  · rintro ⟨a, root, way⟩
    have closed := @explore_closed α _ next finite [] roots.eraseDups (by simp)
    have known : a ∈ discover next finite roots :=
      isPrefix_explore.subset (by simpa using root)
    exact way.keeps (fun b c step mem => closed b mem c step) known

/-- Each element is discovered once. -/
theorem nodup_discover (roots : List α) : (discover next finite roots).Nodup :=
  nodup_explore (by simpa using nodup_eraseDups roots)

/-- The roots come first. -/
theorem roots_isPrefix_discover (roots : List α)
    : roots.eraseDups <+: discover next finite roots := by
  simpa [discover] using
    (isPrefix_explore : [] ++ roots.eraseDups <+: explore next finite [] roots.eraseDups)

end Munch
