import Mathlib.Tactic

namespace Doux
namespace Foundation

open List

/-!
# Merging several lists

Items are taken one at a time from the list whose head has the smallest key, and
from the first such list when several heads are equal.  The merged list has the
items of all lists, and it is in order when every list is.
-/

section
variable {α L : Type} [LinearOrder L] (key : α -> L)

/-- The smaller of the head of a list and the smallest head of the lists after it. -/
def takeSmaller : List α -> List (List α) -> Option (α × List (List α)) ->
    Option (α × List (List α))
  | [], _, none => none
  | [], _, some (item, rest) => some (item, [] :: rest)
  | head :: tail, children, none => some (head, tail :: children)
  | head :: tail, children, some (item, rest) =>
    if key item < key head then some (item, (head :: tail) :: rest)
    else some (head, tail :: children)

/-- The smallest head, and the lists that remain without it. -/
def takeSmallest : List (List α) -> Option (α × List (List α))
  | [] => none
  | child :: children => takeSmaller key child children (takeSmallest children)

/-- Take the smallest head as often as the fuel allows. -/
def mergeLoop : Nat -> List (List α) -> List α
  | 0, _ => []
  | fuel + 1, children =>
    match takeSmallest key children with
    | none => []
    | some (item, rest) => item :: mergeLoop fuel rest

/-- Merge until all lists are used up. -/
def mergeAll (children : List (List α)) : List α := mergeLoop key children.flatten.length children

variable {key}

theorem takeSmallest_eq_none {children : List (List α)} (none : takeSmallest key children = none) :
    children.flatten = [] := by
  induction children with
  | nil => rfl
  | cons child children ih =>
    rw [takeSmallest] at none
    cases rest : takeSmallest key children with
    | none =>
      rw [rest] at none
      cases child with
      | nil => exact ih rest
      | cons head tail => cases none
    | some pair => cases child <;> grind [takeSmaller]

/-- The item taken and the items that remain are the items of all lists.  Ordered lists
stay ordered, and the item taken is the smallest of all. -/
theorem takeSmallest_spec {children rest : List (List α)} {item : α}
    (taken : takeSmallest key children = some (item, rest)) :
    children.flatten.Perm (item :: rest.flatten) ∧
      ((∀ child ∈ children, child.Pairwise (fun a b => key a ≤ key b)) ->
        (∀ child ∈ rest, child.Pairwise (fun a b => key a ≤ key b)) ∧
          ∀ a ∈ children.flatten, key item ≤ key a) := by
  induction children generalizing item rest with
  | nil => cases taken
  | cons child children ih =>
    rw [takeSmallest] at taken
    rw [forall_mem_cons]
    cases later : takeSmallest key children with
    | none =>
      rw [later] at taken
      cases child with
      | nil => cases taken
      | cons head tail =>
        cases taken
        rw [pairwise_cons, flatten_cons, flatten_cons, takeSmallest_eq_none later, append_nil,
          append_nil]
        exact ⟨.refl _, fun ⟨⟨above, ordered⟩, others⟩ =>
          ⟨forall_mem_cons.mpr ⟨ordered, others⟩, forall_mem_cons.mpr ⟨le_refl _, above⟩⟩⟩
    | some pair =>
      rcases ih later with ⟨perm, least⟩
      rw [later] at taken
      cases child with
      | nil =>
        cases taken
        exact ⟨perm, fun ⟨first, others⟩ =>
          ⟨forall_mem_cons.mpr ⟨first, (least others).1⟩, (least others).2⟩⟩
      | cons head tail =>
        rw [takeSmaller] at taken
        rw [flatten_cons, forall_mem_append, forall_mem_cons, pairwise_cons]
        split at taken
        · next less =>
            cases taken
            refine ⟨(perm.append_left (head :: tail)).trans perm_middle, ?_⟩
            rintro ⟨⟨above, ordered⟩, others⟩
            exact ⟨forall_mem_cons.mpr ⟨pairwise_cons.mpr ⟨above, ordered⟩, (least others).1⟩,
              ⟨le_of_lt less, fun a member => le_trans (le_of_lt less) (above a member)⟩,
              (least others).2⟩
        · next notLess =>
            cases taken
            refine ⟨.refl _, ?_⟩
            rintro ⟨⟨above, ordered⟩, others⟩
            exact ⟨forall_mem_cons.mpr ⟨ordered, others⟩, ⟨le_refl _, above⟩, fun a member =>
              le_trans (not_lt.mp notLess) ((least others).2 a member)⟩

theorem mergeLoop_perm (fuel : Nat) (children : List (List α))
    (enough : children.flatten.length ≤ fuel) :
    (mergeLoop key fuel children).Perm children.flatten := by
  induction fuel generalizing children with
  | zero =>
    rw [length_eq_zero_iff.mp (Nat.le_zero.mp enough)]
    exact List.Perm.refl _
  | succ fuel ih =>
    rw [mergeLoop]
    cases taken : takeSmallest key children with
    | none => rw [takeSmallest_eq_none taken]
    | some pair =>
      rcases pair with ⟨item, rest⟩
      have perm := (takeSmallest_spec taken).1
      have length := perm.length_eq
      rw [length_cons] at length
      exact ((ih rest (by omega)).cons item).trans perm.symm

theorem mergeAll_perm (children : List (List α)) : (mergeAll key children).Perm children.flatten :=
  mergeLoop_perm _ children (le_refl _)

theorem mergeLoop_pairwise (fuel : Nat) (children : List (List α))
    (enough : children.flatten.length ≤ fuel)
    (ordered : ∀ child ∈ children, child.Pairwise (fun a b => key a ≤ key b)) :
    (mergeLoop key fuel children).Pairwise (fun a b => key a ≤ key b) := by
  induction fuel generalizing children with
  | zero => exact List.Pairwise.nil
  | succ fuel ih =>
    rw [mergeLoop]
    cases taken : takeSmallest key children with
    | none => exact List.Pairwise.nil
    | some pair =>
      rcases pair with ⟨_, rest⟩
      rcases takeSmallest_spec taken with ⟨perm, keeps⟩
      have length := perm.length_eq
      rw [length_cons] at length
      rcases keeps ordered with ⟨orderedRest, least⟩
      refine pairwise_cons.mpr ⟨fun a member => ?_, ih rest (by omega) orderedRest⟩
      have inRest := (mergeLoop_perm fuel rest (by omega)).mem_iff.mp member
      exact least a (perm.mem_iff.mpr (mem_cons_of_mem _ inRest))

/-- Merging ordered lists without a repeated key gives a strictly ordered list. -/
theorem mergeAll_pairwise_lt {children : List (List α)}
    (ordered : ∀ child ∈ children, child.Pairwise (fun a b => key a ≤ key b))
    (distinct : (children.flatten.map key).Nodup) :
    (mergeAll key children).Pairwise (fun a b => key a < key b) := by
  have weak := mergeLoop_pairwise _ children (le_refl _) ordered
  have nodup : ((mergeAll key children).map key).Nodup :=
    ((mergeAll_perm children).map key).nodup_iff.mpr distinct
  have different := pairwise_map.mp nodup
  exact (weak.and different).imp (fun both => lt_of_le_of_ne both.1 both.2)

end

end Foundation
end Doux
