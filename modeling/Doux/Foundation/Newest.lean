import Mathlib.Tactic

namespace Doux
namespace Foundation

open List

/-!
# Versions in layers

Items have a key and a version number, and a reader asks for the newest version of a
key up to a bound.  The items are kept in several sources.  Sources are layered when,
of any two, the earlier one has the newer versions of every key that they share.  A
search through layered sources in order may then stop at the first hit.
-/

/-- How to read off the key and the version number of an item. -/
structure Versioned (α κ : Type) where
  key : α -> κ
  version : α -> Nat

namespace Versioned

variable {α κ : Type} (items : Versioned α κ)

/-- Of every shared key the first list has the older versions. -/
def Older (old new : List α) : Prop :=
  ∀ a ∈ old, ∀ b ∈ new, items.key a = items.key b -> items.version a < items.version b

/-- No version of the key is within the bound. -/
def Unseen (list : List α) (k : κ) (bound : Nat) : Prop :=
  ∀ a ∈ list, items.key a = k -> ¬ items.version a ≤ bound

/-- The item is the newest version of the key within the bound. -/
structure IsNewest (list : List α) (k : κ) (bound : Nat) (item : α) : Prop where
  mem : item ∈ list
  key_eq : items.key item = k
  visible : items.version item ≤ bound
  newest : ∀ other ∈ list, items.key other = k -> items.version other ≤ bound ->
    items.version other ≤ items.version item

/-- The answer to a search: the newest version, or nothing if there is none. -/
def Answers (list : List α) (k : κ) (bound : Nat) : Option α -> Prop
  | none => items.Unseen list k bound
  | some item => items.IsNewest list k bound item

variable {items} {list first second : List α} {k : κ} {bound : Nat} {item : α}

theorem Older.mono {old new old' new' : List α} (older : items.Older old new)
    (fewerOld : old' ⊆ old) (fewerNew : new' ⊆ new) : items.Older old' new' :=
  fun a inOld b inNew => older a (fewerOld inOld) b (fewerNew inNew)

section
variable (newest : items.IsNewest list k bound item)
include newest

theorem IsNewest.of_subset (sub : first ⊆ list) (kept : item ∈ first) :
    items.IsNewest first k bound item :=
  ⟨kept, newest.key_eq, newest.visible, fun other member => newest.newest other (sub member)⟩

theorem IsNewest.version_eq {other : α} (again : items.IsNewest list k bound other) :
    items.version item = items.version other :=
  le_antisymm (again.newest item newest.mem newest.key_eq newest.visible)
    (newest.newest other again.mem again.key_eq again.visible)

/-- The newest version of a key is unique when versions identify the items of a key. -/
theorem IsNewest.eq {other : α} (again : items.IsNewest list k bound other)
    (distinct : ∀ a ∈ list, ∀ b ∈ list, items.key a = items.key b ->
      items.version a = items.version b -> a = b) : item = other :=
  distinct item newest.mem other again.mem (newest.key_eq.trans again.key_eq.symm)
    (newest.version_eq again)

theorem IsNewest.not_unseen : ¬ items.Unseen list k bound :=
  fun unseen => unseen item newest.mem newest.key_eq newest.visible

end

variable {found : Option α}

theorem Answers.append_right (answer : items.Answers second k bound found)
    (unseen : items.Unseen first k bound) : items.Answers (first ++ second) k bound found := by
  cases found with
  | none => exact forall_mem_append.mpr ⟨unseen, answer⟩
  | some item =>
    refine ⟨mem_append_right _ answer.mem, answer.key_eq, answer.visible,
      forall_mem_append.mpr ⟨?_, answer.newest⟩⟩
    exact fun other inFirst same visible => absurd visible (unseen other inFirst same)

/-- The source with the newer versions answers first. -/
theorem Answers.append {found other : Option α} (answer : items.Answers first k bound found)
    (later : items.Answers second k bound other) (older : items.Older second first) :
    items.Answers (first ++ second) k bound (found.or other) := by
  cases found with
  | none => exact later.append_right answer
  | some item =>
    refine ⟨mem_append_left _ answer.mem, answer.key_eq, answer.visible,
      forall_mem_append.mpr ⟨answer.newest, fun other inSecond same _ => ?_⟩⟩
    exact le_of_lt (older other inSecond item answer.mem (same.trans answer.key_eq.symm))

/-- The answer, by a walk through the list. -/
def findNewest [DecidableEq κ] (items : Versioned α κ) (k : κ) (bound : Nat) : List α -> Option α
  | [] => none
  | item :: rest =>
    if items.key item = k ∧ items.version item ≤ bound then
      match findNewest items k bound rest with
      | none => some item
      | some best => if items.version best ≤ items.version item then some item else some best
    else findNewest items k bound rest

/-- The newer of the head and of what the tail answers. -/
theorem answers_findNewest [DecidableEq κ] (items : Versioned α κ) (k : κ) (bound : Nat)
    (list : List α) : items.Answers list k bound (items.findNewest k bound list) := by
  induction list with
  | nil => exact nofun
  | cons head tail ih =>
    unfold findNewest
    by_cases sees : items.key head = k ∧ items.version head ≤ bound
    · have first (least : ∀ other ∈ tail, items.key other = k -> items.version other ≤ bound ->
          items.version other ≤ items.version head) : items.IsNewest (head :: tail) k bound head :=
        ⟨mem_cons_self, sees.1, sees.2, forall_mem_cons.mpr ⟨fun _ _ => le_refl _, least⟩⟩
      rw [if_pos sees]
      cases found : items.findNewest k bound tail with
      | none =>
        rw [found] at ih
        exact first fun other inTail same visible => absurd visible (ih other inTail same)
      | some best =>
        rw [found] at ih
        dsimp only
        by_cases newer : items.version best ≤ items.version head
        · rw [if_pos newer]
          exact first fun other inTail same visible =>
            le_trans (ih.newest other inTail same visible) newer
        · rw [if_neg newer]
          exact ⟨mem_cons_of_mem _ ih.mem, ih.key_eq, ih.visible,
            forall_mem_cons.mpr ⟨fun _ _ => le_of_not_ge newer, ih.newest⟩⟩
    · have unseen (same : items.key head = k) : ¬ items.version head ≤ bound :=
        fun visible => sees ⟨same, visible⟩
      rw [if_neg sees]
      exact ih.append_right (forall_mem_singleton.mpr unseen)

/-- Versions identify the items of a key. -/
def Distinct (items : Versioned α κ) (list : List α) : Prop :=
  ∀ a ∈ list, ∀ b ∈ list, items.key a = items.key b -> items.version a = items.version b -> a = b

/-- There is only one answer. -/
theorem Answers.eq {found other : Option α} (answer : items.Answers list k bound found)
    (again : items.Answers list k bound other) (distinct : items.Distinct list) :
    found = other := by
  cases found with
  | none =>
    cases other with
    | none => rfl
    | some item => exact absurd answer again.not_unseen
  | some item =>
    cases other with
    | none => exact absurd again answer.not_unseen
    | some second => rw [IsNewest.eq answer again distinct]

theorem findNewest_eq_some [DecidableEq κ] (distinct : items.Distinct list) :
    items.findNewest k bound list = some item <-> items.IsNewest list k bound item := by
  have answer := answers_findNewest items k bound list
  constructor
  · intro found
    rw [found] at answer
    exact answer
  · intro newest
    have again : items.Answers list k bound (some item) := newest
    exact answer.eq again distinct

/-- Only the items of the key matter. -/
theorem Answers.congr (answer : items.Answers first k bound found)
    (same : ∀ item, items.key item = k -> (item ∈ first <-> item ∈ second)) :
    items.Answers second k bound found := by
  cases found with
  | none => exact fun item member isKey => answer item ((same item isKey).mpr member) isKey
  | some item =>
    exact ⟨(same item answer.key_eq).mp answer.mem, answer.key_eq, answer.visible,
      fun other member isKey => answer.newest other ((same other isKey).mpr member) isKey⟩

theorem findNewest_of_answers [DecidableEq κ]
    (answer : items.Answers list k bound found) (distinct : items.Distinct list) :
    items.findNewest k bound list = found :=
  (answers_findNewest items k bound list).eq answer distinct

theorem Distinct.of_subset (distinct : items.Distinct list) (sub : first ⊆ list) :
    items.Distinct first :=
  fun a inFirst b alsoInFirst => distinct a (sub inFirst) b (sub alsoInFirst)

/-- A part of the items that has the answer gives the same answer. -/
theorem findNewest_of_subset [DecidableEq κ] (distinct : items.Distinct list) (sub : first ⊆ list)
    (kept : ∀ item ∈ items.findNewest k bound list, item ∈ first) :
    items.findNewest k bound first = items.findNewest k bound list := by
  have answer := answers_findNewest items k bound list
  apply findNewest_of_answers ?_ (distinct.of_subset sub)
  cases found : items.findNewest k bound list with
  | none =>
    rw [found] at answer
    exact fun item member => answer item (sub member)
  | some item =>
    rw [found] at answer
    exact IsNewest.of_subset answer sub (kept item found)

/-- Layered sources, each of which versions identify, are identified together. -/
theorem distinct_append (distinct : items.Distinct first) (other : items.Distinct second)
    (older : items.Older second first) : items.Distinct (first ++ second) := by
  intro a inAppend b alsoInAppend keys versions
  rcases mem_append.mp inAppend with inFirst | inSecond <;>
    rcases mem_append.mp alsoInAppend with alsoFirst | alsoSecond
  · exact distinct a inFirst b alsoFirst keys versions
  · exact absurd versions.symm (ne_of_lt (older b alsoSecond a inFirst keys.symm))
  · exact absurd versions (ne_of_lt (older a inSecond b alsoFirst keys))
  · exact other a inSecond b alsoSecond keys versions

/-- A search through layered sources stops at the first source that answers. -/
theorem answers_findSome {look : List α -> Option α} {sources : List (List α)}
    (layered : sources.Pairwise (fun newer older => items.Older older newer))
    (each : ∀ source ∈ sources, items.Answers source k bound (look source)) :
    items.Answers sources.flatten k bound (sources.findSome? look) := by
  induction sources with
  | nil => exact nofun
  | cons source sources ih =>
    rcases pairwise_cons.mp layered with ⟨here, later⟩
    rcases forall_mem_cons.mp each with ⟨answer, others⟩
    have older : items.Older sources.flatten source := by
      intro a inLater b inSource
      rcases mem_flatten.mp inLater with ⟨older, isSource, member⟩
      exact here older isSource a member b inSource
    have both := answer.append (ih later others) older
    rw [findSome?_cons]
    cases found : look source <;> rwa [found] at both

section Search
variable [DecidableEq κ]

/-- The answer does not depend on the order of the items. -/
theorem findNewest_congr (distinct : items.Distinct second)
    (same : ∀ item, item ∈ first <-> item ∈ second) :
    items.findNewest k bound first = items.findNewest k bound second :=
  (findNewest_of_answers ((answers_findNewest items k bound first).congr
    (fun item _ => same item)) distinct).symm

/-- Searching layered sources in order finds the newest item of all. -/
theorem findSome_findNewest {sources : List (List α)}
    (layered : sources.Pairwise (fun newer older => items.Older older newer))
    (distinct : items.Distinct list) (same : ∀ item, item ∈ sources.flatten <-> item ∈ list) :
    sources.findSome? (items.findNewest k bound) = items.findNewest k bound list := by
  have answer := answers_findSome layered (fun source _ => answers_findNewest items k bound source)
  exact (findNewest_of_answers (answer.congr (fun item _ => same item)) distinct).symm

/-- Newer items come first in the search. -/
theorem findNewest_append (older : items.Older first second)
    (distinct : items.Distinct (first ++ second)) : items.findNewest k bound (first ++ second) =
      (items.findNewest k bound second).or (items.findNewest k bound first) := by
  have answer := (answers_findNewest items k bound second).append
    (answers_findNewest items k bound first) older
  exact findNewest_of_answers (answer.congr fun _ _ => by simp [or_comm]) distinct

end Search

end Versioned

end Foundation
end Doux
