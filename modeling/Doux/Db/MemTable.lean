import Doux.Db.Database

namespace Doux
namespace Db

open Foundation Util List

/-!
# The entries of a memtable

A memtable has one entry for each operation, under a key with the sequence number of the
operation.  As no two operations have the same sequence number, the keys differ, and
the iterator of the memtable gives them in strictly increasing order.
-/

theorem memTableEntry_spec (operation : Nat × Update) (bounded : operation.1 ≤ kMaxSequenceNumber) :
    (memTableEntry operation).key.sequence = operation.1 ∧
      (memTableEntry operation).key.type = some operation.2.type :=
  packSequenceAndType_eq_ok (assertThat_bind_eq_ok.mpr ⟨bounded, rfl⟩) _

theorem memTableEntries_append (first : Nat) (updates later : List Update) :
    memTableEntries first (updates ++ later) =
      memTableEntries first updates ++ memTableEntries (first + updates.length) later := by
  unfold memTableEntries
  rw [WriteBatch.numbered_append, map_append]

theorem mem_numbered {first : Nat} {updates : List Update} {operation : Nat × Update}
    (member : operation ∈ WriteBatch.numbered first updates) :
    first ≤ operation.1 ∧ operation.1 < first + updates.length ∧
      updates[operation.1 - first]? = some operation.2 := by
  induction updates generalizing first with
  | nil => cases member
  | cons update updates ih =>
    rcases mem_cons.mp member with rfl | later
    · exact ⟨le_refl _, by simp, by simp⟩
    · rcases ih later with ⟨_, _, found⟩
      rw [length_cons]
      refine ⟨by omega, by omega, ?_⟩
      rw [show operation.1 - first = operation.1 - (first + 1) + 1 by omega]
      exact found

/-- The entries have increasing sequence numbers. -/
abbrev InWriteOrder (entries : List Entry) : Prop :=
  entries.Pairwise (fun a b => a.key.sequence < b.key.sequence)

section Numbers
variable {first : Nat} {updates : List Update}
  (bounded : first + updates.length ≤ kMaxSequenceNumber + 1)
include bounded

theorem memTableEntries_spec {entry : Entry} (member : entry ∈ memTableEntries first updates) :
    first ≤ entry.key.sequence ∧ entry.key.sequence < first + updates.length ∧
      ∃ update, updates[entry.key.sequence - first]? = some update ∧
        entry.key.userKey = update.key ∧ entry.key.type = some update.type ∧
        entry.value = update.value := by
  rcases mem_map.mp member with ⟨operation, isOperation, rfl⟩
  rcases mem_numbered isOperation with ⟨above, below, found⟩
  rcases memTableEntry_spec operation (by omega) with ⟨sequence, type⟩
  rw [sequence]
  exact ⟨above, below, operation.2, found, rfl, type, rfl⟩

theorem memTableEntries_increasing : InWriteOrder (memTableEntries first updates) := by
  induction updates generalizing first with
  | nil => exact List.Pairwise.nil
  | cons update updates ih =>
    rw [length_cons] at bounded
    have later : first + 1 + updates.length ≤ kMaxSequenceNumber + 1 := by omega
    refine pairwise_cons.mpr ⟨fun entry member => ?_, ih later⟩
    have above := (memTableEntries_spec later member).1
    have sequence := (memTableEntry_spec (first, update)
      (show first ≤ kMaxSequenceNumber by omega)).1
    rw [sequence]
    exact above

end Numbers

/-- The iterator of a memtable gives strictly increasing keys. -/
theorem sorted_memTable [LinearOrder UserKey] {entries : List Entry}
    (increasing : InWriteOrder entries) :
    InKeyOrder (entries.insertionSort (fun a b => a.key ≤ b.key)) := by
  have ordered : (entries.insertionSort (fun a b => a.key ≤ b.key)).Pairwise
      (fun a b => a.key ≤ b.key) := pairwise_insertionSort _ _
  have distinct : (entries.insertionSort (fun a b => a.key ≤ b.key)).Pairwise
      (fun a b => a.key ≠ b.key) := by
    refine ((perm_insertionSort _ entries).pairwise_iff
      (fun differs same => differs same.symm)).mpr (increasing.imp ?_)
    intro a b less same
    rw [same] at less
    exact lt_irrefl _ less
  exact ordered.imp₂ (fun a b small different => lt_of_le_of_ne small different) distinct

end Db
end Doux
