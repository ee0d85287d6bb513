import Doux.Foundation.Newest

namespace Doux
namespace Foundation
namespace Versioned

/-!
# Dropping old versions

Of some of the items, the inputs, old versions are dropped: those that a newer input
hides from every reader above a floor, and those that have expired.  The other items
stay.  Readers above the floor are told the same as before unless an expired item was
the answer at the floor, and what is left below it says something else.
-/

variable {α κ β : Type} {items : Versioned α κ} {floor : Nat} {expired : α -> Prop}
  {list inputs others kept : List α}

/-- A newer version is within the floor. -/
def Hidden (items : Versioned α κ) (floor : Nat) (list : List α) (item : α) : Prop :=
  ∃ newer ∈ list, items.key newer = items.key item ∧
    items.version item < items.version newer ∧ items.version newer ≤ floor

/-- The items that are kept of a list of inputs and others. -/
structure Collects (items : Versioned α κ) (floor : Nat) (expired : α -> Prop)
    (list inputs others kept : List α) : Prop where
  distinct : items.Distinct list
  all : forall item, item ∈ list <-> item ∈ inputs ∨ item ∈ others
  within : ∀ item ∈ inputs, expired item -> items.version item ≤ floor
  kept : forall item, item ∈ kept <->
    item ∈ others ∨ item ∈ inputs ∧ ¬ items.Hidden floor inputs item ∧ ¬ expired item

namespace Collects

variable (collects : items.Collects floor expired list inputs others kept)
include collects

theorem subset : kept ⊆ list := by
  intro item member
  rcases (collects.kept item).mp member with inOthers | ⟨inInputs, _⟩
  · exact (collects.all item).mpr (Or.inr inOthers)
  · exact (collects.all item).mpr (Or.inl inInputs)

theorem distinct_kept : items.Distinct kept := collects.distinct.of_subset collects.subset

theorem distinct_others : items.Distinct others :=
  collects.distinct.of_subset (fun item inOthers => (collects.all item).mpr (Or.inr inOthers))

variable {k : κ} {bound : Nat} {top : α}

/-- An answer above the floor is dropped only when it has expired. -/
theorem expired_of_not_mem (above : floor ≤ bound) (newest : items.IsNewest list k bound top)
    (dropped : top ∉ kept) : top ∈ inputs ∧ expired top := by
  have inInputs : top ∈ inputs := by
    rcases (collects.all top).mp newest.mem with inInputs | inOthers
    · exact inInputs
    · exact absurd ((collects.kept top).mpr (Or.inl inOthers)) dropped
  refine ⟨inInputs, ?_⟩
  by_contra fresh
  refine dropped ((collects.kept top).mpr (Or.inr ⟨inInputs, ?_, fresh⟩))
  rintro ⟨newer, isInput, same, larger, visible⟩
  have older := newest.newest newer ((collects.all newer).mpr (Or.inl isInput))
    (same.trans newest.key_eq) (le_trans visible above)
  exact absurd larger (not_lt.mpr older)

/-- Below an expired answer only the other items are left. -/
theorem mem_kept_iff (newest : items.IsNewest list k bound top) (inInputs : top ∈ inputs)
    (old : expired top) {item : α} (isKey : items.key item = k)
    (visible : items.version item ≤ bound) : item ∈ kept <-> item ∈ others := by
  rw [collects.kept]
  constructor
  · rintro (inOthers | ⟨isInput, seen, fresh⟩)
    · exact inOthers
    · exfalso
      have member := (collects.all item).mpr (Or.inl isInput)
      have same : items.key top = items.key item := newest.key_eq.trans isKey.symm
      rcases Nat.lt_or_eq_of_le (newest.newest item member isKey visible) with less | equal
      · exact seen ⟨top, inInputs, same, less, collects.within top inInputs old⟩
      · rw [collects.distinct item member top newest.mem same.symm equal] at fresh
        exact fresh old
  · exact Or.inl

section
variable (above : floor ≤ bound) (newest : items.IsNewest list k bound top)
  (inInputs : top ∈ inputs) (old : expired top)
include above newest inInputs old

theorem isNewest_kept_iff {item : α} : items.IsNewest kept k bound item <-> items.IsNewest others k floor item := by
  have within := collects.within top inInputs old
  have lower {other : α} (member : other ∈ list) (isKey : items.key other = k)
      (visible : items.version other ≤ bound) : items.version other ≤ floor :=
    le_trans (newest.newest other member isKey visible) within
  constructor
  · intro isNewest
    refine ⟨(collects.mem_kept_iff newest inInputs old isNewest.key_eq isNewest.visible).mp
      isNewest.mem, isNewest.key_eq,
      lower (collects.subset isNewest.mem) isNewest.key_eq isNewest.visible, ?_⟩
    intro other inOthers isKey visible
    exact isNewest.newest other ((collects.kept other).mpr (Or.inl inOthers)) isKey
      (le_trans visible above)
  · intro isNewest
    refine ⟨(collects.kept item).mpr (Or.inl isNewest.mem), isNewest.key_eq,
      le_trans isNewest.visible above, ?_⟩
    intro other isKept isKey visible
    have inOthers := (collects.mem_kept_iff newest inInputs old isKey visible).mp isKept
    exact isNewest.newest other inOthers isKey (lower (collects.subset isKept) isKey visible)

theorem findNewest_kept [DecidableEq κ] : items.findNewest k bound kept = items.findNewest k floor others := by
  refine Option.ext fun item => ?_
  rw [findNewest_eq_some collects.distinct_kept, findNewest_eq_some collects.distinct_others]
  exact collects.isNewest_kept_iff above newest inInputs old

end

variable [DecidableEq κ]

/-- Readers above the floor are told the same exactly if what is left below an expired
answer says the same as the answer did. -/
theorem told_iff (value : α -> Option β) :
    (∀ k bound, floor ≤ bound -> (items.findNewest k bound kept).bind value =
        (items.findNewest k bound list).bind value) <->
      ∀ k top, items.findNewest k floor list = some top -> top ∈ inputs -> expired top ->
        (items.findNewest k floor others).bind value = value top := by
  constructor
  · intro same k top found inInputs old
    have newest := (findNewest_eq_some collects.distinct).mp found
    rw [<- collects.findNewest_kept (le_refl floor) newest inInputs old,
      same k floor (le_refl floor), found, Option.bind_some]
  · intro left k bound above
    by_cases stays : ∀ top ∈ items.findNewest k bound list, top ∈ kept
    · rw [findNewest_of_subset collects.distinct collects.subset stays]
    · rw [not_forall₂] at stays
      rcases stays with ⟨top, found, lost⟩
      have newest := (findNewest_eq_some collects.distinct).mp found
      rcases collects.expired_of_not_mem above newest lost with ⟨inInputs, old⟩
      have within := collects.within top inInputs old
      have atFloor : items.IsNewest list k floor top :=
        ⟨newest.mem, newest.key_eq, within, fun other member isKey visible =>
          newest.newest other member isKey (le_trans visible above)⟩
      rw [collects.findNewest_kept above newest inInputs old, found]
      exact left k top ((findNewest_eq_some collects.distinct).mpr atFloor) inInputs old

end Collects

end Versioned
end Foundation
end Doux
