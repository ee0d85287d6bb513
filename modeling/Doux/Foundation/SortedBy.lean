import Mathlib.Tactic
import Mathlib.Data.List.TakeWhile
import Mathlib.Data.List.Sort

namespace Doux
namespace Foundation

open List

universe u v

/-!
# Lists in key order

An ordered set whose elements are compared by a key is a list with strictly
increasing keys.  Inserting an element whose key is present does nothing.  Two
ordered lists are merged by a scan that, before each element of the second,
emits the elements of the first that are not above it.  A list in key order is
determined by its elements, so different ways to build one agree as soon as
they agree on membership.
-/

section
variable {α : Type u} {κ : Type v} [LinearOrder κ] (key : α -> κ)

def SortedBy (list : List α) : Prop := list.Pairwise (fun a b => key a < key b)

/-- Insertion into an ordered set. -/
def insertBy (item : α) : List α -> List α
  | [] => [item]
  | head :: tail =>
    if key item < key head then item :: head :: tail
    else if key head < key item then head :: insertBy item tail
    else head :: tail

/-- Insert all items, first to last. -/
def insertAllBy (list items : List α) : List α :=
  items.foldl (fun list item => insertBy key item list) list

/-- Merge by scanning the first list up to the upper bound of each element of
the second. -/
def mergeBy : List α -> List α -> List α
  | base, [] => base
  | base, item :: items =>
    base.takeWhile (fun b => decide (¬ key item < key b)) ++
      item :: mergeBy (base.dropWhile (fun b => decide (¬ key item < key b))) items

variable {key} {list : List α}

theorem SortedBy.nodup_map (sorted : SortedBy key list) : (list.map key).Nodup :=
  pairwise_map.mpr (sorted.imp fun less => ne_of_lt less)

theorem SortedBy.nodup (sorted : SortedBy key list) : list.Nodup := sorted.nodup_map.of_map

/-- A list in key order is determined by its elements. -/
theorem SortedBy.ext {first second : List α} (sorted : SortedBy key first)
    (other : SortedBy key second) (same : ∀ a, a ∈ first <-> a ∈ second) : first = second := by
  have perm := (perm_ext_iff_of_nodup sorted.nodup other.nodup).mpr same
  apply perm.eq_of_pairwise _ sorted other
  intro _ _ _ _ less greater
  exact absurd (less.trans greater) (lt_irrefl _)

theorem SortedBy.filter (sorted : SortedBy key list) (keep : α -> Bool) :
    SortedBy key (list.filter keep) :=
  Pairwise.filter keep sorted

variable {item a : α}

theorem mem_of_mem_insertBy (member : a ∈ insertBy key item list) : a = item ∨ a ∈ list := by
  induction list with
  | nil => exact Or.inl (mem_singleton.mp member)
  | cons head tail ih =>
    rw [insertBy] at member
    split at member
    · exact mem_cons.mp member
    · split at member
      · rcases mem_cons.mp member with rfl | inside
        · exact Or.inr mem_cons_self
        · exact (ih inside).imp id (mem_cons_of_mem _)
      · exact Or.inr member

theorem mem_insertBy_of_mem (member : a ∈ list) : a ∈ insertBy key item list := by
  induction list with
  | nil => cases member
  | cons head tail ih =>
    rw [insertBy]
    split
    · exact mem_cons_of_mem _ member
    · split
      · rcases mem_cons.mp member with rfl | inside
        · exact mem_cons_self
        · exact mem_cons_of_mem _ (ih inside)
      · exact member

theorem mem_insertBy_self {item : α} (fresh : ∀ a ∈ list, key a = key item -> a = item) :
    item ∈ insertBy key item list := by
  induction list with
  | nil => exact mem_cons_self
  | cons head tail ih =>
    rw [insertBy]
    split
    · exact mem_cons_self
    · split
      · exact mem_cons_of_mem _ (ih (fun a member => fresh a (mem_cons_of_mem _ member)))
      · next notBelow notAbove =>
          have same := le_antisymm (not_lt.mp notBelow) (not_lt.mp notAbove)
          rw [fresh head mem_cons_self same]
          exact mem_cons_self

/-- Membership after inserting an item with a key of its own. -/
theorem mem_insertBy (fresh : ∀ b ∈ list, key b = key item -> b = item) :
    a ∈ insertBy key item list <-> a = item ∨ a ∈ list := by
  constructor
  · exact mem_of_mem_insertBy
  · rintro (rfl | member)
    · exact mem_insertBy_self fresh
    · exact mem_insertBy_of_mem member

theorem SortedBy.insertBy (sorted : SortedBy key list) (item : α) :
    SortedBy key (insertBy key item list) := by
  induction list with
  | nil => exact pairwise_singleton _ _
  | cons head tail ih =>
    rcases pairwise_cons.mp sorted with ⟨above, rest⟩
    rw [Foundation.insertBy]
    split
    · next below =>
        exact pairwise_cons.mpr ⟨forall_mem_cons.mpr
          ⟨below, fun b inside => below.trans (above b inside)⟩, sorted⟩
    · split
      · next higher =>
          refine pairwise_cons.mpr ⟨?_, ih rest⟩
          intro b member
          rcases mem_of_mem_insertBy member with rfl | inside
          · exact higher
          · exact above b inside
      · exact sorted

theorem SortedBy.insertAllBy (sorted : SortedBy key list) (items : List α) :
    SortedBy key (insertAllBy key list items) := by
  induction items generalizing list with
  | nil => exact sorted
  | cons item items ih => exact ih (sorted.insertBy item)

/-- Membership after inserting items whose keys are their own. -/
theorem mem_insertAllBy {items : List α} {a : α}
    (inj : ∀ b c, b ∈ items -> c ∈ list ∨ c ∈ items -> key c = key b -> c = b) :
    a ∈ insertAllBy key list items <-> a ∈ list ∨ a ∈ items := by
  induction items generalizing list with
  | nil =>
    change a ∈ list <-> a ∈ list ∨ a ∈ []
    simp
  | cons item items ih =>
    have own : ∀ c, c ∈ insertBy key item list <-> c = item ∨ c ∈ list := fun c =>
      mem_insertBy (fun b member =>
        inj item b mem_cons_self (Or.inl member))
    change a ∈ insertAllBy key (insertBy key item list) items <-> _
    rw [ih, own, mem_cons]
    · exact (or_comm.or Iff.rfl).trans or_assoc
    · intro b c memberB memberC same
      apply inj b c (mem_cons_of_mem _ memberB) _ same
      rcases memberC with inserted | later
      · rcases (own c).mp inserted with rfl | old
        · exact Or.inr mem_cons_self
        · exact Or.inl old
      · exact Or.inr (mem_cons_of_mem _ later)

/-- Inserting the elements of a list in key order rebuilds the list. -/
theorem SortedBy.insertAllBy_nil (sorted : SortedBy key list) :
    Foundation.insertAllBy key [] list = list := by
  have none : SortedBy key ([] : List α) := Pairwise.nil
  apply SortedBy.ext (none.insertAllBy list) sorted
  intro _
  rw [mem_insertAllBy]
  · exact ⟨fun either => either.elim (fun member => by cases member) id, Or.inr⟩
  · rintro _ _ memberB (member | memberC) same
    · cases member
    · exact inj_on_of_nodup_map sorted.nodup_map memberC memberB same

theorem mem_mergeBy {base items : List α} {a : α} :
    a ∈ mergeBy key base items <-> a ∈ base ∨ a ∈ items := by
  induction items generalizing base with
  | nil =>
    change a ∈ base <-> a ∈ base ∨ a ∈ []
    simp
  | cons item items ih =>
    have parts := takeWhile_append_dropWhile (p := fun b => decide (¬ key item < key b)) (l := base)
    rw [mergeBy, mem_append, mem_cons, ih, mem_cons]
    nth_rewrite 3 [<- parts]
    rw [mem_append]
    tauto

theorem mergeBy_nil (items : List α) : mergeBy key [] items = items := by
  induction items with
  | nil => rfl
  | cons item items ih =>
    rw [mergeBy, takeWhile_nil, dropWhile_nil, nil_append, ih]

omit [LinearOrder κ] in
/-- Going on from a place over the items with a property. -/
theorem split_takeWhile (list : List α) (p : α -> Bool) (n : Nat) :
    list.take (n + ((list.drop n).takeWhile p).length) = list.take n ++ (list.drop n).takeWhile p ∧
      list.drop (n + ((list.drop n).takeWhile p).length) = (list.drop n).dropWhile p := by
  have parts := takeWhile_append_dropWhile (l := list.drop n) (p := p)
  constructor
  · rw [take_add]
    nth_rewrite 2 [<- parts]
    rw [take_left]
  · rw [<- drop_drop]
    nth_rewrite 2 [<- parts]
    rw [drop_left]

/-- A predicate that holds up to some place of a list and not behind it. -/
theorem while_eq_filter {p : α -> Bool} {list : List α}
    (upTo : list.Pairwise (fun a b => p b = true -> p a = true)) :
    list.takeWhile p = list.filter p ∧ list.dropWhile p = list.filter (fun a => !p a) := by
  induction list with
  | nil => exact ⟨rfl, rfl⟩
  | cons head tail ih =>
    rcases pairwise_cons.mp upTo with ⟨first, later⟩
    cases holds : p head with
    | true => simpa [holds] using ih later
    | false =>
      have none : ∀ a ∈ tail, p a = false := fun a member => by simpa [holds] using first a member
      have all : tail.filter (fun a => !p a) = tail := filter_eq_self.mpr (by simpa using none)
      simpa [holds, all] using none

theorem SortedBy.upTo {base : List α} (sorted : SortedBy key base) (item : α) :
    base.Pairwise (fun a b =>
      decide (¬ key item < key b) = true -> decide (¬ key item < key a) = true) :=
  sorted.imp fun less => by simpa using less.le.trans

theorem SortedBy.above_of_mem_dropWhile {base : List α} (sorted : SortedBy key base)
    {item b : α} (member : b ∈ base.dropWhile (fun b => decide (¬ key item < key b))) :
    key item < key b := by
  rw [(while_eq_filter (sorted.upTo item)).2] at member
  simpa using (mem_filter.mp member).2

theorem SortedBy.mergeBy {base items : List α} (sorted : SortedBy key base)
    (sortedItems : SortedBy key items) (disjoint : ∀ a ∈ items, ∀ b ∈ base, key a ≠ key b) :
    SortedBy key (mergeBy key base items) := by
  induction items generalizing base with
  | nil => exact sorted
  | cons item items ih =>
    rcases pairwise_cons.mp sortedItems with ⟨aboveItem, restItems⟩
    have parts := sorted
    unfold SortedBy at parts
    rw [<- takeWhile_append_dropWhile (p := fun b => ¬ key item < key b) (l := base),
      pairwise_append] at parts
    rcases parts with ⟨low, high, _⟩
    have lowBelow : ∀ a ∈ base.takeWhile (fun b => ¬ key item < key b), key a < key item := by
      intro a member
      have passed := mem_takeWhile_imp member
      exact lt_of_le_of_ne (not_lt.mp (of_decide_eq_true passed))
        (disjoint item mem_cons_self a (takeWhile_subset _ member)).symm
    have later := ih high restItems (fun a memberA b memberB =>
      disjoint a (mem_cons_of_mem _ memberA) b (dropWhile_subset _ memberB))
    have itemBelow : ∀ b ∈ Foundation.mergeBy key
        (base.dropWhile (fun b => ¬ key item < key b)) items, key item < key b := by
      intro b member
      rcases mem_mergeBy.mp member with fromBase | fromItems
      · exact sorted.above_of_mem_dropWhile fromBase
      · exact aboveItem b fromItems
    exact pairwise_append.mpr ⟨low, pairwise_cons.mpr ⟨itemBelow, later⟩, fun a memberA =>
      forall_mem_cons.mpr ⟨lowBelow a memberA,
        fun b inside => (lowBelow a memberA).trans (itemBelow b inside)⟩⟩

/-- Sorting a list without a repeated key puts it in key order. -/
theorem sortedBy_insertionSort (distinct : list.Pairwise (fun a b => key a ≠ key b)) :
    SortedBy key (list.insertionSort (fun a b => key a ≤ key b)) := by
  have different := (Perm.pairwise_iff (fun {a b} (differ : key a ≠ key b) => differ.symm)
    (perm_insertionSort (fun a b => key a ≤ key b) list)).mpr distinct
  have ordered := pairwise_insertionSort (fun a b => key a ≤ key b) list
  exact ordered.imp₂ (fun _ _ => lt_of_le_of_ne) different

end

end Foundation
end Doux
