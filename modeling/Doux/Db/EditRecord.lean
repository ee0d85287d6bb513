import Doux.Db.VersionEdit

namespace Doux
namespace Db

open Foundation Util List

/-!
# The record of an edit

Writing an edit and reading it back gives every field again.  The dependency map is
rebuilt from its entries, which are written in whatever order the hash map has them,
and the rebuilt map may have another shape; but it gives the same root for every number.

Strings are written after their length, which takes 32 bits.  A longer string is read
back as a shorter one, and its remaining bytes are then taken for the next fields.
-/

namespace VersionEdit

/-- What a decoded edit has in common with the one that was written. -/
structure Reproduces (edit decoded : ManifestEdit) : Prop where
  comparator : decoded.comparator = edit.comparator
  logNumber : decoded.logNumber = edit.logNumber
  prevLogNumber : decoded.prevLogNumber = edit.prevLogNumber
  nextFileNumber : decoded.nextFileNumber = edit.nextFileNumber
  lastSequence : decoded.lastSequence = edit.lastSequence
  compactPointers : decoded.compactPointers = edit.compactPointers
  compactVPointers : decoded.compactVPointers = edit.compactVPointers
  deletedFiles : decoded.deletedFiles = edit.deletedFiles
  deletedVFiles : decoded.deletedVFiles = edit.deletedVFiles
  newFiles : decoded.newFiles = edit.newFiles
  newVFiles : decoded.newVFiles = edit.newVFiles
  findParent : forall number, (decoded.dep.findParent number).1 = (edit.dep.findParent number).1

/-- The levels of an edit are levels of the key tree, its keys are not empty, and its
numbers are 64-bit numbers. -/
structure Writable (edit : ManifestEdit) : Prop where
  keys : ∀ key ∈ edit.encodedKeys, key ≠ []
  logNumber : ∀ number ∈ edit.logNumber, number < 2 ^ 64
  prevLogNumber : ∀ number ∈ edit.prevLogNumber, number < 2 ^ 64
  nextFileNumber : ∀ number ∈ edit.nextFileNumber, number < 2 ^ 64
  lastSequence : ∀ number ∈ edit.lastSequence, number < 2 ^ 64
  compactPointers : ∀ pointer ∈ edit.compactPointers, pointer.1 < kNumLevels
  compactVPointers : ∀ pointer ∈ edit.compactVPointers, pointer.1 < kNumLevels
  deletedFiles : ∀ deleted ∈ edit.deletedFiles.files, deleted.1 < kNumLevels ∧ deleted.2 < 2 ^ 64
  deletedVFiles : ∀ deleted ∈ edit.deletedVFiles.files, deleted.1 < kNumLevels ∧ deleted.2 < 2 ^ 64
  newFiles : ∀ file ∈ edit.newFiles, file.1 < kNumLevels ∧ file.2.number < 2 ^ 64 ∧
    file.2.fileSize < 2 ^ 64
  newVFiles : ∀ file ∈ edit.newVFiles, file.1 < kNumLevels ∧ file.2.number < 2 ^ 64 ∧
    file.2.fileSize < 2 ^ 64
  dep : ∀ edge ∈ edit.dep.edges, edge.1 < 2 ^ 64 ∧ edge.2 < 2 ^ 64

/-- The strings of an edit are shorter than the lengths that can be written. -/
structure Short (edit : ManifestEdit) : Prop where
  comparator : ∀ name ∈ edit.comparator, name.length < 2 ^ 32
  keys : ∀ key ∈ edit.encodedKeys, key.length < 2 ^ 32

theorem Writable.representable {edit : ManifestEdit} (writable : edit.Writable)
    (short : edit.Short) : edit.Representable where
  comparator := short.comparator
  logNumber := writable.logNumber
  prevLogNumber := writable.prevLogNumber
  nextFileNumber := writable.nextFileNumber
  lastSequence := writable.lastSequence
  compactPointers pointer member := by
    refine ⟨writable.compactPointers pointer member, short.keys _ ?_⟩
    simp only [encodedKeys, mem_append, mem_map]
    exact Or.inl (Or.inl (Or.inl ⟨pointer, member, rfl⟩))
  compactVPointers pointer member := by
    refine ⟨writable.compactVPointers pointer member, short.keys _ ?_⟩
    simp only [encodedKeys, mem_append, mem_map]
    exact Or.inl (Or.inl (Or.inr ⟨pointer, member, rfl⟩))
  deletedFiles := writable.deletedFiles
  deletedVFiles := writable.deletedVFiles
  newFiles file member := by
    rcases writable.newFiles file member with ⟨level, number, size⟩
    have isKey (key : Bytes) (either : key = file.2.smallest ∨ key = file.2.largest) :
        key ∈ edit.encodedKeys := by
      simp only [encodedKeys, mem_append, mem_flatMap]
      exact Or.inl (Or.inr ⟨file, member, by simpa using either⟩)
    exact ⟨level, number, size, short.keys _ (isKey _ (Or.inl rfl)),
      short.keys _ (isKey _ (Or.inr rfl))⟩
  newVFiles file member := by
    rcases writable.newVFiles file member with ⟨level, number, size⟩
    have isKey (key : Bytes) (either : key = file.2.smallest ∨ key = file.2.largest) :
        key ∈ edit.encodedKeys := by
      simp only [encodedKeys, mem_append, mem_flatMap]
      exact Or.inr ⟨file, member, by simpa using either⟩
    exact ⟨level, number, size, short.keys _ (isKey _ (Or.inl rfl)),
      short.keys _ (isKey _ (Or.inr rfl))⟩
  dep := writable.dep

/-- An edit with short strings is read back from its record, in whatever order the entries
of its dependency map are written. -/
theorem decodeFrom_encodeTo_reproduces (edit : ManifestEdit) (writable : edit.Writable)
    (short : edit.Short) (order : List (Nat × Nat)) (perm : order.Perm edit.dep.edges) :
    ∃ bytes decoded, edit.encodeTo order = .ok bytes ∧ decodeFrom bytes = .ok decoded ∧
      Reproduces edit decoded := by
  have decodes := decodeFrom_encodeFields (writable.representable short) perm
  refine ⟨edit.encodeFields order, _, assertThat_bind_eq_ok.mpr ⟨writable.keys, rfl⟩, decodes, ?_⟩
  constructor <;> try rfl
  exact congrFun (Dependency.root_setParents_empty perm)

/-- An edit with one new key file, one new value file and a redirection between value
files. -/
def mergeRecord : ManifestEdit :=
  ((VersionEdit.empty.addFile 1 ⟨7, 100, [97], [98]⟩).addVFile 0 ⟨8, 50, [1], [2]⟩).addDependency
    8 5

theorem decodeFrom_encodeTo_mergeRecord :
    ∃ bytes decoded, mergeRecord.encodeTo mergeRecord.dep.edges = .ok bytes ∧
      decodeFrom bytes = .ok decoded ∧ Reproduces mergeRecord decoded := by
  refine decodeFrom_encodeTo_reproduces mergeRecord ?_ ?_ _ (List.Perm.refl _)
  · constructor <;> decide
  · constructor <;> decide

/-- An edit with nothing but the name of a comparator. -/
def comparatorRecord (name : Bytes) : ManifestEdit :=
  { VersionEdit.empty with comparator := some name }

theorem writable_comparatorRecord (name : Bytes) : (comparatorRecord name).Writable := by
  constructor <;> exact nofun

/-- The length of the name is written as zero, and its first byte is read as a tag. -/
theorem decodeFrom_comparatorRecord {rest : Bytes} (wraps : (0 :: rest).length % 2 ^ 32 = 0) :
    decodeFrom ((comparatorRecord (0 :: rest)).encodeFields []) = .error "unknown tag" := by
  have bytes : (comparatorRecord (0 :: rest)).encodeFields [] =
      Tag.comparator.encode ++ (encodeVarint32 0 ++ 0 :: rest) := by
    change Tag.comparator.encode ++ putLengthPrefixedSlice (0 :: rest) ++ [] ++ [] = _
    rw [append_nil, append_nil, putLengthPrefixedSlice, wraps]
  have first : decodeBody ⟨empty, Tag.comparator.encode ++ (encodeVarint32 0 ++ 0 :: rest)⟩ =
      .again ⟨comparatorRecord [], 0 :: rest⟩ := by
    rfl
  have second : decodeBody ⟨comparatorRecord [], 0 :: rest⟩ = .done (.error "unknown tag") := rfl
  rw [decodeFrom, bytes, (Passes.one first).returns second (by simp [Tag.encode])]

/-- A comparator with a name of four gigabytes cannot be read back. -/
theorem decodeFrom_long_comparator : ∃ (edit : ManifestEdit) (bytes : Bytes), edit.Writable ∧
    edit.encodeTo edit.dep.edges = .ok bytes ∧ decodeFrom bytes = .error "unknown tag" := by
  refine ⟨comparatorRecord (0 :: List.replicate (2 ^ 32 - 1) 0), _, writable_comparatorRecord _,
    assertThat_bind_eq_ok.mpr ⟨(writable_comparatorRecord _).keys, rfl⟩, ?_⟩
  apply decodeFrom_comparatorRecord
  rw [length_cons, length_replicate]
  norm_num

/-- `VersionEdit::Clear`, which leaves both lists of compaction pointers and the dependency
map as they are. -/
def clear (edit : ManifestEdit) : ManifestEdit :=
  { edit with
    comparator := none
    logNumber := none
    prevLogNumber := none
    lastSequence := none
    nextFileNumber := none
    deletedFiles := .empty
    deletedVFiles := .empty
    newFiles := []
    newVFiles := [] }

/-- One pass of `DecodeFrom` on an object.  After an error the object has what was stored
before. -/
def decodePass (state : DecodeState) : LoopStep DecodeState (ManifestEdit × Option String) :=
  match decodeBody state with
  | .again next => .again next
  | .done (.ok edit) => .done (edit, none)
  | .done (.error message) => .done (state.edit, some message)

/-- `VersionEdit::DecodeFrom` on any object: what becomes of it, and the message. -/
def decodeInto (edit : ManifestEdit) (src : Bytes) : Option (ManifestEdit × Option String) :=
  runLoop decodePass (src.length + 1) ⟨edit.clear, src⟩

theorem runLoop_decodeBody (fuel : Nat) (state : DecodeState) :
    runLoop decodeBody fuel state = (runLoop decodePass fuel state).map
      (fun left => left.2.elim (.ok left.1) .error) := by
  induction fuel generalizing state with
  | zero => rfl
  | succ fuel ih =>
    rw [runLoop, runLoop, decodePass]
    rcases decodeBody state with next | _ | _
    · exact ih next
    · rfl
    · rfl

theorem decodeFrom_eq (src : Bytes) : decodeFrom src =
    ((decodeInto empty src).map (fun left => left.2.elim (.ok left.1) .error)).getD
      (.error "pass bound exceeded") := by
  rw [decodeFrom, runLoop_decodeBody]
  change _ = ((runLoop decodePass (src.length + 1) ⟨empty, src⟩).map _).getD _
  cases runLoop decodePass (src.length + 1) ⟨empty, src⟩ <;> rfl

/-- What is decoded into an object does not depend on what the object was exactly when the
object had no compaction pointers and no dependencies. -/
theorem decodeInto_eq_iff (before : ManifestEdit) :
    (forall src, decodeInto before src = decodeInto empty src) <->
      before.compactPointers = [] ∧ before.compactVPointers = [] ∧ before.dep = .empty := by
  constructor
  · intro same
    have cleared : before.clear = empty := congrArg Prod.fst (Option.some.inj (same []))
    exact ⟨congrArg compactPointers cleared, congrArg compactVPointers cleared,
      congrArg dep cleared⟩
  · rintro ⟨pointers, vpointers, noDep⟩ src
    rw [decodeInto, clear, pointers, vpointers, noDep]
    rfl

/-- A compaction pointer that is left over from an earlier record. -/
theorem decodeInto_keeps_pointer :
    decodeInto empty [5, 0, 1, 1] = some (empty.setCompactPointer 0 [1], none) ∧
      decodeInto (empty.setCompactPointer 0 [1]) [] = some (empty.setCompactPointer 0 [1], none) ∧
      decodeInto empty [] ≠ decodeInto (empty.setCompactPointer 0 [1]) [] := by
  refine ⟨rfl, rfl, fun same => ?_⟩
  have cleared := congrArg Prod.fst (Option.some.inj same)
  cases congrArg compactPointers cleared

end VersionEdit

end Db
end Doux
