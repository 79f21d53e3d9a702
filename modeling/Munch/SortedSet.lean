/-! Finite sets kept as strictly increasing lists, so that two sets with the same members are the
same value. The order is the one of a number given to every element. The main statement is
extensionality (`SortedSet.ext`); each operation comes with the lemma that says what it does to
membership.
-/

namespace Munch

/-- A type whose elements are ordered, and told apart, by a natural number. -/
class Ranked (α : Type) where
  rank : α → Nat
  eq_of_rank_eq : ∀ {a b : α}, rank a = rank b → a = b

export Ranked (rank)

instance : Ranked Nat where
  rank n := n
  eq_of_rank_eq h := h

instance : Ranked Char where
  rank c := c.toNat
  eq_of_rank_eq h := Char.toNat_inj.mp h

variable {α : Type} [Ranked α]

/-- The list is strictly increasing by rank. -/
def Ascending (items : List α) : Prop :=
  items.Pairwise fun a b => rank a < rank b

instance (items : List α) : Decidable (Ascending items) :=
  inferInstanceAs (Decidable (items.Pairwise _))

/-- An increasing list has no element twice, since no rank lies below itself. -/
theorem Ascending.nodup {items : List α} (h : Ascending items) : items.Nodup :=
  h.imp fun lt same => by simp [same] at lt

/-- Puts an element at its place in an increasing list, unless it is there already. -/
def insertRanked (a : α) : List α → List α
  | [] => [a]
  | b :: rest =>
      if rank a < rank b then a :: b :: rest
      else if rank a = rank b then b :: rest
      else b :: insertRanked a rest

/-- Inserting adds the element and nothing else, by induction on the list. -/
theorem mem_insertRanked {a x : α} {items : List α}
    : x ∈ insertRanked a items ↔ x = a ∨ x ∈ items := by
  induction items with
  | nil => simp [insertRanked]
  | cons b rest ih =>
      unfold insertRanked
      split
      · simp
      · split
        · rename_i same
          have := Ranked.eq_of_rank_eq same
          grind
        · grind

/-- An increasing list stays increasing, by induction on the list down to the place of the element.
-/
theorem Ascending.insertRanked {items : List α} (h : Ascending items) (a : α)
    : Ascending (insertRanked a items) := by
  induction items with
  | nil => simp [Munch.insertRanked, Ascending]
  | cons b rest ih =>
      obtain ⟨head, tail⟩ := List.pairwise_cons.mp h
      unfold Munch.insertRanked
      split
      · rename_i lt
        refine List.pairwise_cons.mpr ⟨fun x hx => ?_, h⟩
        rcases List.mem_cons.mp hx with rfl | hx
        · exact lt
        · exact Nat.lt_trans lt (head x hx)
      · split
        · exact h
        · refine List.pairwise_cons.mpr ⟨fun x hx => ?_, ih tail⟩
          rcases mem_insertRanked.mp hx with rfl | hx
          · omega
          · exact head x hx

/-- Two increasing lists with the same members are the same list. -/
theorem Ascending.eq_of_mem_iff {s t : List α} (hs : Ascending s) (ht : Ascending t)
    (same : ∀ x, x ∈ s ↔ x ∈ t)
    : s = t := by
  induction s generalizing t with
  | nil => cases t with
    | nil => rfl
    | cons b _ => simpa using same b
  | cons a s ih =>
      cases t with
      | nil => simpa using same a
      | cons b t =>
          obtain ⟨belowS, tailS⟩ := List.pairwise_cons.mp hs
          obtain ⟨belowT, tailT⟩ := List.pairwise_cons.mp ht
          have heads : a = b := by
            rcases List.mem_cons.mp ((same a).mp (by simp)) with h | h
            · exact h
            rcases List.mem_cons.mp ((same b).mpr (by simp)) with h' | h'
            · exact h'.symm
            have := belowS b h'
            have := belowT a h
            omega
          subst heads
          refine congrArg (a :: ·) (ih tailS tailT fun x => ?_)
          have notS : x ∈ s → x ≠ a := fun hx same => by have := belowS x hx; simp [same] at this
          have notT : x ∈ t → x ≠ a := fun hx same => by have := belowT x hx; simp [same] at this
          have := same x
          grind

/-- An increasing list whose elements occur in another one stands there in the same order. -/
theorem Ascending.sublist_of_subset {s t : List α} (hs : Ascending s) (ht : Ascending t)
    (sub : ∀ x ∈ s, x ∈ t)
    : s.Sublist t := by
  induction t generalizing s with
  | nil =>
      have : s = [] := List.eq_nil_iff_forall_not_mem.mpr fun x mem => by simpa using sub x mem
      simp [this]
  | cons b t ih =>
      cases s with
      | nil => exact List.nil_sublist _
      | cons a s =>
          obtain ⟨belowS, tailS⟩ := List.pairwise_cons.mp hs
          obtain ⟨belowT, tailT⟩ := List.pairwise_cons.mp ht
          rcases List.mem_cons.mp (sub a (by simp)) with rfl | later
          · refine .cons_cons a (ih tailS tailT fun x mem => ?_)
            rcases List.mem_cons.mp (sub x (by simp [mem])) with rfl | inT
            · have := belowS x mem
              omega
            · exact inT
          · refine .cons b (ih hs tailT fun x mem => ?_)
            rcases List.mem_cons.mp (sub x mem) with rfl | inT
            · rcases List.mem_cons.mp mem with rfl | inS
              · exact later
              · have := belowS x inS
                have := belowT a later
                omega
            · exact inT

/-- Every list whose elements stand in another list in the same order. -/
def sublistsOf : List α → List (List α)
  | [] => [[]]
  | a :: rest => sublistsOf rest ++ (sublistsOf rest).map (a :: ·)

omit [Ranked α] in
/-- Every list that stands in another in the same order is listed, by induction on how it stands
there.
-/
theorem mem_sublistsOf {part whole : List α} (h : part.Sublist whole)
    : part ∈ sublistsOf whole := by
  induction h with
  | slnil => simp [sublistsOf]
  | cons _ _ ih => exact List.mem_append_left _ ih
  | cons_cons a _ ih => exact List.mem_append_right _ (List.mem_map.mpr ⟨_, ih, rfl⟩)

/-- A finite set, as the increasing list of its members. -/
structure SortedSet (α : Type) [Ranked α] where
  toList : List α
  ascending : Ascending toList

namespace SortedSet

instance : Membership α (SortedSet α) where
  mem s a := a ∈ s.toList

/-- The members of a set are the elements of its list. -/
theorem mem_toList {s : SortedSet α} {a : α} : a ∈ s.toList ↔ a ∈ s := Iff.rfl

/-- A set is determined by its list. -/
theorem toList_inj {s t : SortedSet α} : s.toList = t.toList ↔ s = t := by
  cases s; cases t; simp

instance [DecidableEq α] : DecidableEq (SortedSet α) := fun _ _ =>
  decidable_of_iff _ toList_inj

instance [DecidableEq α] (a : α) (s : SortedSet α) : Decidable (a ∈ s) :=
  inferInstanceAs (Decidable (a ∈ s.toList))

/-- Sets with the same members are equal, because there is only one increasing list of them. -/
@[ext]
theorem ext {s t : SortedSet α} (same : ∀ a, a ∈ s ↔ a ∈ t) : s = t :=
  toList_inj.mp (s.ascending.eq_of_mem_iff t.ascending same)

/-- The list of a set has each member once. -/
theorem nodup_toList (s : SortedSet α) : s.toList.Nodup := s.ascending.nodup

/-- Sets are compared by their increasing lists: the first difference decides, and a list that
ends before it comes first.
-/
instance : Ord (SortedSet α) where
  compare s t := compare (s.toList.map rank) (t.toList.map rank)

instance : EmptyCollection (SortedSet α) where
  emptyCollection := ⟨[], .nil⟩

/-- The empty set has the empty list. -/
@[simp]
theorem toList_empty : (∅ : SortedSet α).toList = [] := rfl

/-- The empty set has no members. -/
@[simp]
theorem not_mem_empty (a : α) : a ∉ (∅ : SortedSet α) := List.not_mem_nil

/-- Only the empty set has the empty list. -/
theorem toList_eq_nil_iff {s : SortedSet α} : s.toList = [] ↔ s = ∅ := toList_inj (t := ∅)

/-- No member at all. -/
def isEmpty (s : SortedSet α) : Bool := s.toList.isEmpty

/-- The test finds the empty set only. -/
@[simp]
theorem isEmpty_iff {s : SortedSet α} : s.isEmpty = true ↔ s = ∅ :=
  List.isEmpty_iff.trans toList_eq_nil_iff

/-- A set that is not empty has a member. -/
theorem exists_mem_of_ne_empty {s : SortedSet α} (h : s ≠ ∅) : ∃ a, a ∈ s :=
  List.exists_mem_of_ne_nil _ fun nil => h (toList_eq_nil_iff.mp nil)

/-- The set with one more member. -/
def insert (a : α) (s : SortedSet α) : SortedSet α :=
  ⟨insertRanked a s.toList, s.ascending.insertRanked a⟩

/-- Inserting adds one member and nothing else. -/
@[simp, grind =]
theorem mem_insert {a x : α} {s : SortedSet α} : x ∈ s.insert a ↔ x = a ∨ x ∈ s :=
  mem_insertRanked

/-- The set of the elements of a list, in whatever order and multiplicity they come. -/
def ofList (items : List α) : SortedSet α :=
  items.foldr insert ∅

/-- The set of a list has the elements of the list as its members, by induction on the list. -/
@[simp, grind =]
theorem mem_ofList {x : α} {items : List α} : x ∈ ofList items ↔ x ∈ items := by
  induction items with
  | nil => simp [ofList]
  | cons a rest ih =>
      rw [show ofList (a :: rest) = (ofList rest).insert a from rfl, mem_insert, ih]
      simp

/-- The set of the list of a set is that set. -/
@[simp]
theorem ofList_toList (s : SortedSet α) : ofList s.toList = s := by
  ext a
  rw [mem_ofList, mem_toList]

instance : Union (SortedSet α) where
  union s t := s.toList.foldr insert t

/-- The union has the members of both sets. -/
@[simp, grind =]
theorem mem_union {x : α} {s t : SortedSet α} : x ∈ s ∪ t ↔ x ∈ s ∨ x ∈ t := by
  have fold (items : List α) : x ∈ items.foldr insert t ↔ x ∈ items ∨ x ∈ t := by
    induction items with
    | nil => simp
    | cons a rest ih => simp [ih, or_assoc]
  exact fold s.toList

instance : Singleton α (SortedSet α) where
  singleton a := ⟨[a], List.pairwise_singleton _ _⟩

/-- The set of one element has that element in its list. -/
@[simp]
theorem toList_singleton (a : α) : ({a} : SortedSet α).toList = [a] := rfl

/-- The set of one element has no other member. -/
@[simp, grind =]
theorem mem_singleton {a x : α} : x ∈ ({a} : SortedSet α) ↔ x = a := List.mem_singleton

/-- The members for which a test holds. -/
def filter (keep : α → Bool) (s : SortedSet α) : SortedSet α :=
  ⟨s.toList.filter keep, s.ascending.filter keep⟩

/-- Filtering keeps the members that pass the test. -/
@[simp, grind =]
theorem mem_filter {keep : α → Bool} {a : α} {s : SortedSet α}
    : a ∈ s.filter keep ↔ a ∈ s ∧ keep a = true :=
  List.mem_filter

/-- The sets all of whose members belong to a set. -/
def subsets (s : SortedSet α) : List (SortedSet α) :=
  (sublistsOf s.toList).map ofList

/-- Every set whose members all belong to another one is among its subsets: its list stands in the
list of the other in the same order.
-/
theorem mem_subsets {s t : SortedSet α} (h : ∀ a ∈ t, a ∈ s) : t ∈ s.subsets :=
  List.mem_map.mpr
    ⟨t.toList, mem_sublistsOf (t.ascending.sublist_of_subset s.ascending h), ofList_toList t⟩

end SortedSet

end Munch
