import Mathlib.Data.Prod.Lex
import Doux.Foundation.Control
import Doux.Foundation.SortedBy
import Doux.Util.Coding
import Doux.Db.Dependency

namespace Doux
namespace Db

open Foundation Util List

/-!
# Version edits

A `VersionEdit` lists what changes from one version to the next: files added
and deleted per level, compaction pointers, dependencies, and the bookkeeping
numbers.  It is written to the manifest as a sequence of tagged fields.  The
edit is generic in the keys of the key files and of the value files; in the
manifest both are the byte strings inside an `InternalKey`.

The decoder is a loop over fields.  Its correctness is stated field by field:
the encoding of one field, in front of any rest, makes one pass that applies
the field to the edit.  What an edit loses in a round trip is only the internal
shape of its dependency map, which is rebuilt from the written entries.
-/

def kNumLevels : Nat := 7

/-- The part of `FileMetaData` that a manifest records. -/
structure FileMetaData (K : Type) where
  number : Nat
  fileSize : Nat
  smallest : K
  largest : K
deriving DecidableEq, Repr

/-- `std::set<std::pair<int, uint64_t>>`. -/
@[ext]
structure DeletedFileSet where
  files : List (Nat × Nat)
  sorted : SortedBy toLex files

namespace DeletedFileSet

def empty : DeletedFileSet := ⟨[], List.Pairwise.nil⟩

def insert (set : DeletedFileSet) (level number : Nat) : DeletedFileSet :=
  ⟨insertBy toLex (level, number) set.files, set.sorted.insertBy _⟩

end DeletedFileSet

structure VersionEdit (K V : Type) where
  comparator : Option Bytes
  logNumber : Option Nat
  prevLogNumber : Option Nat
  nextFileNumber : Option Nat
  lastSequence : Option Nat
  compactPointers : List (Nat × K)
  compactVPointers : List (Nat × V)
  deletedFiles : DeletedFileSet
  deletedVFiles : DeletedFileSet
  newFiles : List (Nat × FileMetaData K)
  newVFiles : List (Nat × FileMetaData V)
  dep : Dependency

namespace VersionEdit

section
variable {K V : Type}

def empty : VersionEdit K V where
  comparator := none
  logNumber := none
  prevLogNumber := none
  nextFileNumber := none
  lastSequence := none
  compactPointers := []
  compactVPointers := []
  deletedFiles := .empty
  deletedVFiles := .empty
  newFiles := []
  newVFiles := []
  dep := .empty

def addFile (edit : VersionEdit K V) (level : Nat) (file : FileMetaData K) : VersionEdit K V :=
  { edit with newFiles := edit.newFiles ++ [(level, file)] }

def addVFile (edit : VersionEdit K V) (level : Nat) (file : FileMetaData V) : VersionEdit K V :=
  { edit with newVFiles := edit.newVFiles ++ [(level, file)] }

def deleteFile (edit : VersionEdit K V) (level number : Nat) : VersionEdit K V :=
  { edit with deletedFiles := edit.deletedFiles.insert level number }

def deleteVFile (edit : VersionEdit K V) (level number : Nat) : VersionEdit K V :=
  { edit with deletedVFiles := edit.deletedVFiles.insert level number }

def setCompactPointer (edit : VersionEdit K V) (level : Nat) (key : K) : VersionEdit K V :=
  { edit with compactPointers := edit.compactPointers ++ [(level, key)] }

def setCompactVPointer (edit : VersionEdit K V) (level : Nat) (key : V) : VersionEdit K V :=
  { edit with compactVPointers := edit.compactVPointers ++ [(level, key)] }

def addDependency (edit : VersionEdit K V) (parent child : Nat) : VersionEdit K V :=
  { edit with dep := edit.dep.setParent parent child }

end

end VersionEdit

inductive Tag where
  | comparator
  | logNumber
  | nextFileNumber
  | lastSequence
  | compactPointer
  | deletedFile
  | newFile
  | prevLogNumber
  | compactVPointer
  | deletedVFile
  | newVFile
  | dependency
deriving DecidableEq, Repr

namespace Tag

def code : Tag -> Nat
  | comparator => 1
  | logNumber => 2
  | nextFileNumber => 3
  | lastSequence => 4
  | compactPointer => 5
  | deletedFile => 6
  | newFile => 7
  | prevLogNumber => 9
  | compactVPointer => 10
  | deletedVFile => 11
  | newVFile => 12
  | dependency => 13

/-- The cases of the decoder's switch. -/
def ofCode : Nat -> Option Tag
  | 1 => some comparator
  | 2 => some logNumber
  | 3 => some nextFileNumber
  | 4 => some lastSequence
  | 5 => some compactPointer
  | 6 => some deletedFile
  | 7 => some newFile
  | 9 => some prevLogNumber
  | 10 => some compactVPointer
  | 11 => some deletedVFile
  | 12 => some newVFile
  | 13 => some dependency
  | _ => none

theorem ofCode_code (tag : Tag) : ofCode tag.code = some tag := by
  cases tag <;> rfl

def encode (tag : Tag) : Bytes := encodeVarint32 tag.code

end Tag

/-- An edit as it is written to a manifest, with the bytes of internal keys. -/
abbrev ManifestEdit := VersionEdit Bytes Bytes

def encodeNumberField (tag : Tag) (number : Nat) : Bytes := tag.encode ++ encodeVarint64 number

def encodePointerField (tag : Tag) (pointer : Nat × Bytes) : Bytes :=
  tag.encode ++ (encodeVarint32 pointer.1 ++ putLengthPrefixedSlice pointer.2)

def encodeDeletedField (tag : Tag) (deleted : Nat × Nat) : Bytes :=
  tag.encode ++ (encodeVarint32 deleted.1 ++ encodeVarint64 deleted.2)

def encodeFileField (tag : Tag) (file : Nat × FileMetaData Bytes) : Bytes :=
  tag.encode ++ (encodeVarint32 file.1 ++ (encodeVarint64 file.2.number ++
    (encodeVarint64 file.2.fileSize ++ (putLengthPrefixedSlice file.2.smallest ++
      putLengthPrefixedSlice file.2.largest))))

def encodeDependencyField (edge : Nat × Nat) : Bytes :=
  Tag.dependency.encode ++ (encodeVarint64 edge.1 ++ encodeVarint64 edge.2)

namespace VersionEdit

/-- The keys on which the encoder calls `InternalKey::Encode`. -/
def encodedKeys (edit : ManifestEdit) : List Bytes :=
  edit.compactPointers.map Prod.snd ++ edit.compactVPointers.map Prod.snd ++
    edit.newFiles.flatMap (fun file => [file.2.smallest, file.2.largest]) ++
    edit.newVFiles.flatMap (fun file => [file.2.smallest, file.2.largest])

/-- The bytes written by `VersionEdit::EncodeTo`, the dependency map being
iterated in the given order. -/
def encodeFields (edit : ManifestEdit) (order : List (Nat × Nat)) : Bytes :=
  edit.comparator.toList.flatMap
      (fun name => Tag.comparator.encode ++ putLengthPrefixedSlice name) ++
    (edit.logNumber.toList.flatMap (encodeNumberField .logNumber) ++
    (edit.prevLogNumber.toList.flatMap (encodeNumberField .prevLogNumber) ++
    (edit.nextFileNumber.toList.flatMap (encodeNumberField .nextFileNumber) ++
    (edit.lastSequence.toList.flatMap (encodeNumberField .lastSequence) ++
    (edit.compactPointers.flatMap (encodePointerField .compactPointer) ++
    (edit.compactVPointers.flatMap (encodePointerField .compactVPointer) ++
    (edit.deletedFiles.files.flatMap (encodeDeletedField .deletedFile) ++
    (edit.deletedVFiles.files.flatMap (encodeDeletedField .deletedVFile) ++
    (edit.newFiles.flatMap (encodeFileField .newFile) ++
    (edit.newVFiles.flatMap (encodeFileField .newVFile) ++
    order.flatMap encodeDependencyField))))))))))

/-- `VersionEdit::EncodeTo`; `InternalKey::Encode` aborts on an empty key. -/
def encodeTo (edit : ManifestEdit) (order : List (Nat × Nat)) : Except String Bytes := do
  assertThat (∀ key ∈ edit.encodedKeys, key ≠ []) "InternalKey::Encode() called with empty rep_!"
  return edit.encodeFields order

def getLevel (input : Bytes) : Option (Nat × Bytes) :=
  match getVarint32 input with
  | some (level, input) => if level < kNumLevels then some (level, input) else none
  | none => none

def decodePointer (input : Bytes) : Option ((Nat × Bytes) × Bytes) := do
  let (level, input) <- getLevel input
  let (key, input) <- getLengthPrefixedSlice input
  return ((level, key), input)

def decodeDeleted (input : Bytes) : Option ((Nat × Nat) × Bytes) := do
  let (level, input) <- getLevel input
  let (number, input) <- getVarint64 input
  return ((level, number), input)

def decodeFile (input : Bytes) : Option ((Nat × FileMetaData Bytes) × Bytes) := do
  let (level, input) <- getLevel input
  let (number, input) <- getVarint64 input
  let (fileSize, input) <- getVarint64 input
  let (smallest, input) <- getLengthPrefixedSlice input
  let (largest, input) <- getLengthPrefixedSlice input
  return ((level, ⟨number, fileSize, smallest, largest⟩), input)

def decodeDependency (input : Bytes) : Option ((Nat × Nat) × Bytes) := do
  let (child, input) <- getVarint64 input
  let (parent, input) <- getVarint64 input
  return ((child, parent), input)

/-- The variables of the loop in `DecodeFrom`. -/
structure DecodeState where
  edit : ManifestEdit
  input : Bytes

/-- Store a field that was read, or leave with the message for it. -/
def storeField {α : Type} (message : String) (store : α -> ManifestEdit)
    (field : Option (α × Bytes)) : LoopStep DecodeState (Except String ManifestEdit) :=
  match field with
  | some (value, input) => .again ⟨store value, input⟩
  | none => .done (.error message)

/-- The switch over the tag. -/
def decodeField (tag : Tag) (edit : ManifestEdit) (input : Bytes) :
    LoopStep DecodeState (Except String ManifestEdit) :=
  match tag with
  | .comparator => storeField "comparator name" (fun name => { edit with comparator := some name })
      (getLengthPrefixedSlice input)
  | .logNumber => storeField "log number" (fun number => { edit with logNumber := some number })
      (getVarint64 input)
  | .prevLogNumber => storeField "previous log number"
      (fun number => { edit with prevLogNumber := some number }) (getVarint64 input)
  | .nextFileNumber => storeField "next file number"
      (fun number => { edit with nextFileNumber := some number }) (getVarint64 input)
  | .lastSequence => storeField "last sequence number"
      (fun number => { edit with lastSequence := some number }) (getVarint64 input)
  | .compactPointer => storeField "compaction pointer"
      (fun pointer => edit.setCompactPointer pointer.1 pointer.2) (decodePointer input)
  | .compactVPointer => storeField "compaction vpointer"
      (fun pointer => edit.setCompactVPointer pointer.1 pointer.2) (decodePointer input)
  | .deletedFile => storeField "deleted file"
      (fun deleted => edit.deleteFile deleted.1 deleted.2) (decodeDeleted input)
  | .deletedVFile => storeField "deleted vfile"
      (fun deleted => edit.deleteVFile deleted.1 deleted.2) (decodeDeleted input)
  | .newFile => storeField "new-file entry" (fun file => edit.addFile file.1 file.2)
      (decodeFile input)
  | .newVFile => storeField "new-vfile entry" (fun file => edit.addVFile file.1 file.2)
      (decodeFile input)
  | .dependency => storeField "dependency" (fun edge => edit.addDependency edge.2 edge.1)
      (decodeDependency input)

def decodeBody (state : DecodeState) : LoopStep DecodeState (Except String ManifestEdit) :=
  match getVarint32 state.input with
  | none => .done (if state.input = [] then .ok state.edit else .error "invalid tag")
  | some (tag, input) =>
    match Tag.ofCode tag with
    | none => .done (.error "unknown tag")
    | some tag => decodeField tag state.edit input

/-- `VersionEdit::DecodeFrom` on a fresh edit: the edit, or the message of the
corruption.  Every pass but the last takes a byte off the input. -/
def decodeFrom (src : Bytes) : Except String ManifestEdit :=
  match runLoop decodeBody (src.length + 1) ⟨empty, src⟩ with
  | some result => result
  | none => .error "pass bound exceeded"

/-- The numbers and strings of an edit fit the fields they are written to. -/
structure Representable (edit : ManifestEdit) : Prop where
  comparator : ∀ name ∈ edit.comparator, name.length < 2 ^ 32
  logNumber : ∀ number ∈ edit.logNumber, number < 2 ^ 64
  prevLogNumber : ∀ number ∈ edit.prevLogNumber, number < 2 ^ 64
  nextFileNumber : ∀ number ∈ edit.nextFileNumber, number < 2 ^ 64
  lastSequence : ∀ number ∈ edit.lastSequence, number < 2 ^ 64
  compactPointers : ∀ pointer ∈ edit.compactPointers,
    pointer.1 < kNumLevels ∧ pointer.2.length < 2 ^ 32
  compactVPointers : ∀ pointer ∈ edit.compactVPointers,
    pointer.1 < kNumLevels ∧ pointer.2.length < 2 ^ 32
  deletedFiles : ∀ deleted ∈ edit.deletedFiles.files, deleted.1 < kNumLevels ∧ deleted.2 < 2 ^ 64
  deletedVFiles : ∀ deleted ∈ edit.deletedVFiles.files, deleted.1 < kNumLevels ∧ deleted.2 < 2 ^ 64
  newFiles : ∀ file ∈ edit.newFiles, file.1 < kNumLevels ∧ file.2.number < 2 ^ 64 ∧
    file.2.fileSize < 2 ^ 64 ∧ file.2.smallest.length < 2 ^ 32 ∧ file.2.largest.length < 2 ^ 32
  newVFiles : ∀ file ∈ edit.newVFiles, file.1 < kNumLevels ∧ file.2.number < 2 ^ 64 ∧
    file.2.fileSize < 2 ^ 64 ∧ file.2.smallest.length < 2 ^ 32 ∧ file.2.largest.length < 2 ^ 32
  dep : ∀ edge ∈ edit.dep.edges, edge.1 < 2 ^ 64 ∧ edge.2 < 2 ^ 64

theorem representable_empty : (empty : ManifestEdit).Representable := by
  constructor <;> exact nofun

theorem getLevel_encode {level : Nat} (range : level < kNumLevels) (rest : Bytes) :
    getLevel (encodeVarint32 level ++ rest) = some (level, rest) := by
  have small : level < 2 ^ 32 := lt_trans range (by decide)
  unfold getLevel
  rw [getVarint32_encodeVarint32 small]
  exact if_pos range

theorem decodeBody_tag (tag : Tag) (edit : ManifestEdit) (rest : Bytes) :
    decodeBody ⟨edit, tag.encode ++ rest⟩ = decodeField tag edit rest := by
  have small : tag.code < 2 ^ 32 := by cases tag <;> decide
  unfold decodeBody Tag.encode
  simp [getVarint32_encodeVarint32 small, Tag.ofCode_code]

theorem decodePointer_encode {pointer : Nat × Bytes}
    (fits : pointer.1 < kNumLevels ∧ pointer.2.length < 2 ^ 32) (rest : Bytes) :
    decodePointer (encodeVarint32 pointer.1 ++ putLengthPrefixedSlice pointer.2 ++ rest) =
      some (pointer, rest) := by
  unfold decodePointer
  simp [append_assoc, getLevel_encode fits.1, getLengthPrefixedSlice_put fits.2, Option.bind_some,
    Option.pure_def]

theorem decodeDeleted_encode {deleted : Nat × Nat}
    (fits : deleted.1 < kNumLevels ∧ deleted.2 < 2 ^ 64) (rest : Bytes) :
    decodeDeleted (encodeVarint32 deleted.1 ++ encodeVarint64 deleted.2 ++ rest) =
      some (deleted, rest) := by
  unfold decodeDeleted
  simp [append_assoc, getLevel_encode fits.1, getVarint64_encodeVarint64 fits.2, Option.bind_some,
    Option.pure_def]

theorem decodeFile_encode {file : Nat × FileMetaData Bytes}
    (fits : file.1 < kNumLevels ∧ file.2.number < 2 ^ 64 ∧ file.2.fileSize < 2 ^ 64 ∧
      file.2.smallest.length < 2 ^ 32 ∧ file.2.largest.length < 2 ^ 32) (rest : Bytes) :
    decodeFile (encodeVarint32 file.1 ++ (encodeVarint64 file.2.number ++
      (encodeVarint64 file.2.fileSize ++ (putLengthPrefixedSlice file.2.smallest ++
        putLengthPrefixedSlice file.2.largest))) ++ rest) = some (file, rest) := by
  rcases fits with ⟨level, number, size, smallest, largest⟩
  unfold decodeFile
  simp [getLevel_encode level, getVarint64_encodeVarint64 number, getVarint64_encodeVarint64 size,
    getLengthPrefixedSlice_put smallest, getLengthPrefixedSlice_put largest, Option.bind_some,
    Option.pure_def]

theorem decodeDependency_encode {edge : Nat × Nat}
    (fits : edge.1 < 2 ^ 64 ∧ edge.2 < 2 ^ 64) (rest : Bytes) :
    decodeDependency (encodeVarint64 edge.1 ++ encodeVarint64 edge.2 ++ rest) =
      some (edge, rest) := by
  unfold decodeDependency
  simp [append_assoc, getVarint64_encodeVarint64 fits.1, getVarint64_encodeVarint64 fits.2,
    Option.bind_some, Option.pure_def]

/-- Decoding the bytes, in front of any rest, turns one edit into the other. -/
def Decodes (bytes : Bytes) (edit next : ManifestEdit) : Prop :=
  forall rest, ∃ count, count ≤ bytes.length ∧
    Passes decodeBody count ⟨edit, bytes ++ rest⟩ ⟨next, rest⟩

theorem Decodes.nil (edit : ManifestEdit) : Decodes [] edit edit :=
  fun _ => ⟨0, le_refl _, Passes.zero _⟩

theorem Decodes.append {first second : Bytes} {edit middle next : ManifestEdit}
    (one : Decodes first edit middle) (two : Decodes second middle next) :
    Decodes (first ++ second) edit next := by
  intro rest
  rcases one (second ++ rest) with ⟨count, _, passes⟩
  rcases two rest with ⟨further, _, later⟩
  refine ⟨count + further, ?_, ?_⟩
  · rw [length_append]
    omega
  · rw [append_assoc]
    exact passes.trans later

theorem Decodes.field {tag : Tag} {bytes : Bytes} {edit next : ManifestEdit}
    (field : ∀ rest, decodeField tag edit (bytes ++ rest) = .again ⟨next, rest⟩) :
    Decodes (tag.encode ++ bytes) edit next := by
  intro rest
  refine ⟨1, ?_, Passes.one ?_⟩
  · have written : 0 < tag.encode.length := by
      unfold Tag.encode
      rw [encodeVarint32_eq]
      exact length_pos_iff.mpr (varintGroups_ne_nil _ _)
    rw [length_append]
    omega
  · rw [append_assoc, decodeBody_tag]
    exact field rest

/-- Fields of one kind, one after the other. -/
theorem Decodes.flatMap {α : Type} {encode : α -> Bytes} {store : ManifestEdit -> α -> ManifestEdit}
    (items : List α)
    (each : ∀ item ∈ items, ∀ edit, Decodes (encode item) edit (store edit item))
    (edit : ManifestEdit) : Decodes (items.flatMap encode) edit (items.foldl store edit) := by
  induction items generalizing edit with
  | nil => exact Decodes.nil edit
  | cons item items ih =>
    exact (each item mem_cons_self edit).append
      (ih (fun other member => each other (mem_cons_of_mem _ member)) _)

theorem Decodes.decodeFrom {bytes : Bytes} {next : ManifestEdit}
    (decodes : Decodes bytes empty next) : decodeFrom bytes = .ok next := by
  rcases decodes [] with ⟨_, _, passes⟩
  rw [append_nil] at passes
  have leaves : decodeBody ⟨next, []⟩ = .done (.ok next) := rfl
  unfold VersionEdit.decodeFrom
  rw [passes.returns leaves (by omega)]

/-! ## Reading back a whole edit -/

theorem foldl_concat {σ α : Type} {store : σ -> α -> σ} (field : List α -> σ)
    (stores : ∀ list item, store (field list) item = field (list ++ [item]))
    (items list : List α) : items.foldl store (field list) = field (list ++ items) := by
  rw [foldl_hom field stores, foldl_append_eq_append, <- flatMap_def, flatMap_singleton']

theorem foldl_setCompactPointer (pointers : List (Nat × Bytes)) (edit : ManifestEdit) :
    pointers.foldl (fun edit pointer => edit.setCompactPointer pointer.1 pointer.2) edit =
      { edit with compactPointers := edit.compactPointers ++ pointers } :=
  foldl_concat (fun list => { edit with compactPointers := list }) (fun _ _ => rfl) pointers _

theorem foldl_setCompactVPointer (pointers : List (Nat × Bytes)) (edit : ManifestEdit) :
    pointers.foldl (fun edit pointer => edit.setCompactVPointer pointer.1 pointer.2) edit =
      { edit with compactVPointers := edit.compactVPointers ++ pointers } :=
  foldl_concat (fun list => { edit with compactVPointers := list }) (fun _ _ => rfl) pointers _

theorem foldl_addFile {K V : Type} (files : List (Nat × FileMetaData K)) (edit : VersionEdit K V) :
    files.foldl (fun edit file => edit.addFile file.1 file.2) edit =
      { edit with newFiles := edit.newFiles ++ files } :=
  foldl_concat (fun list => { edit with newFiles := list }) (fun _ _ => rfl) files _

theorem foldl_addVFile {K V : Type} (files : List (Nat × FileMetaData V)) (edit : VersionEdit K V) :
    files.foldl (fun edit file => edit.addVFile file.1 file.2) edit =
      { edit with newVFiles := edit.newVFiles ++ files } :=
  foldl_concat (fun list => { edit with newVFiles := list }) (fun _ _ => rfl) files _

theorem foldl_addDependency {K V : Type} (edges : List (Nat × Nat)) (edit : VersionEdit K V) :
    edges.foldl (fun edit edge => edit.addDependency edge.2 edge.1) edit =
      { edit with dep := edit.dep.setParents edges } :=
  foldl_hom (fun dep => { edit with dep := dep }) (fun _ _ => rfl)

end VersionEdit

namespace DeletedFileSet

def insertAll (set : DeletedFileSet) (files : List (Nat × Nat)) : DeletedFileSet :=
  files.foldl (fun set file => set.insert file.1 file.2) set

theorem files_insertAll (set : DeletedFileSet) (files : List (Nat × Nat)) :
    (set.insertAll files).files = insertAllBy toLex set.files files :=
  (foldl_hom DeletedFileSet.files (fun _ _ => rfl)).symm

theorem mem_insertAll {set : DeletedFileSet} {files : List (Nat × Nat)} {file : Nat × Nat} :
    file ∈ (set.insertAll files).files <-> file ∈ set.files ∨ file ∈ files := by
  rw [files_insertAll, mem_insertAllBy (fun b c _ _ equal => toLex.injective equal)]

theorem insertAll_empty (set : DeletedFileSet) : empty.insertAll set.files = set := by
  apply DeletedFileSet.ext
  apply SortedBy.ext (empty.insertAll set.files).sorted set.sorted
  intro _
  rw [mem_insertAll]
  exact ⟨fun either => either.elim (fun member => by cases member) id, Or.inr⟩

end DeletedFileSet

namespace VersionEdit

theorem foldl_deleteFile {K V : Type} (deleted : List (Nat × Nat)) (edit : VersionEdit K V) :
    deleted.foldl (fun edit file => edit.deleteFile file.1 file.2) edit =
      { edit with deletedFiles := edit.deletedFiles.insertAll deleted } :=
  foldl_hom (fun set => { edit with deletedFiles := set }) (fun _ _ => rfl)

theorem foldl_deleteVFile {K V : Type} (deleted : List (Nat × Nat)) (edit : VersionEdit K V) :
    deleted.foldl (fun edit file => edit.deleteVFile file.1 file.2) edit =
      { edit with deletedVFiles := edit.deletedVFiles.insertAll deleted } :=
  foldl_hom (fun set => { edit with deletedVFiles := set }) (fun _ _ => rfl)

section
variable {α : Type} {message : String} {decode : Bytes -> Option (α × Bytes)} {encode : α -> Bytes}

theorem decodes_fields (tag : Tag) (store : ManifestEdit -> α -> ManifestEdit)
    (field : ∀ edit input, decodeField tag edit input =
      storeField message (store edit) (decode input)) {items : List α}
    (reads : ∀ item ∈ items, ∀ rest, decode (encode item ++ rest) = some (item, rest))
    (edit : ManifestEdit) :
    Decodes (items.flatMap (fun item => tag.encode ++ encode item)) edit
      (items.foldl store edit) := by
  refine Decodes.flatMap items (fun item member edit => Decodes.field fun rest => ?_) edit
  rw [field, reads item member]
  rfl

theorem decodes_option (tag : Tag) (store : ManifestEdit -> Option α -> ManifestEdit)
    (field : ∀ edit input, decodeField tag edit input =
      storeField message (fun value => store edit (some value)) (decode input)) {item : Option α}
    (reads : ∀ value ∈ item, ∀ rest, decode (encode value ++ rest) = some (value, rest))
    (edit : ManifestEdit) (unset : store edit none = edit) :
    Decodes (item.toList.flatMap (fun value => tag.encode ++ encode value)) edit
      (store edit item) := by
  have fields := decodes_fields tag _ field (fun value member =>
    reads value (Option.mem_toList.mp member)) edit
  cases item with
  | none => exact unset.symm ▸ fields
  | some value => exact fields

end

/-- The bookkeeping fields of an edit, without its lists. -/
def bookkeeping (edit : ManifestEdit) : ManifestEdit :=
  { (empty : ManifestEdit) with
    comparator := edit.comparator
    logNumber := edit.logNumber
    prevLogNumber := edit.prevLogNumber
    nextFileNumber := edit.nextFileNumber
    lastSequence := edit.lastSequence }

variable {edit : ManifestEdit} {order : List (Nat × Nat)} (fits : edit.Representable)
  (perm : order.Perm edit.dep.edges)
include fits perm

theorem decodes_encodeFields : Decodes (edit.encodeFields order) empty
    { edit with dep := Dependency.empty.setParents order } := by
  -- what the fields so far have set follows from the goal
  refine (decodes_option .comparator (fun edit name => { edit with comparator := name })
    (fun _ _ => rfl) (fun name member => getLengthPrefixedSlice_put (fits.comparator name member))
    _ rfl).append ?_
  refine (decodes_option .logNumber (fun edit number => { edit with logNumber := number })
    (fun _ _ => rfl)
      (fun number member => getVarint64_encodeVarint64 (fits.logNumber number member))
    _ rfl).append ?_
  refine (decodes_option .prevLogNumber (fun edit number => { edit with prevLogNumber := number })
    (fun _ _ => rfl)
    (fun number member => getVarint64_encodeVarint64 (fits.prevLogNumber number member))
    _ rfl).append ?_
  refine (decodes_option .nextFileNumber (fun edit number => { edit with nextFileNumber := number })
    (fun _ _ => rfl)
    (fun number member => getVarint64_encodeVarint64 (fits.nextFileNumber number member))
    _ rfl).append ?_
  refine (decodes_option .lastSequence (fun edit number => { edit with lastSequence := number })
    (fun _ _ => rfl)
    (fun number member => getVarint64_encodeVarint64 (fits.lastSequence number member))
    _ rfl).append ?_
  change Decodes _ edit.bookkeeping _
  refine (decodes_fields .compactPointer _ (fun _ _ => rfl)
    (fun pointer member => decodePointer_encode (fits.compactPointers pointer member)) _).append ?_
  rw [foldl_setCompactPointer]
  refine (decodes_fields .compactVPointer _ (fun _ _ => rfl)
    (fun pointer member => decodePointer_encode (fits.compactVPointers pointer member)) _).append ?_
  rw [foldl_setCompactVPointer]
  refine (decodes_fields .deletedFile _ (fun _ _ => rfl)
    (fun file member => decodeDeleted_encode (fits.deletedFiles file member)) _).append ?_
  rw [foldl_deleteFile]
  refine (decodes_fields .deletedVFile _ (fun _ _ => rfl)
    (fun file member => decodeDeleted_encode (fits.deletedVFiles file member)) _).append ?_
  rw [foldl_deleteVFile]
  refine (decodes_fields .newFile _ (fun _ _ => rfl)
    (fun file member => decodeFile_encode (fits.newFiles file member)) _).append ?_
  rw [foldl_addFile]
  refine (decodes_fields .newVFile _ (fun _ _ => rfl)
    (fun file member => decodeFile_encode (fits.newVFiles file member)) _).append ?_
  rw [foldl_addVFile]
  have dependencies := decodes_fields .dependency _ (fun _ _ => rfl)
    (fun edge member => decodeDependency_encode (fits.dep edge (perm.mem_iff.mp member)))
    { edit with dep := Dependency.empty }
  rw [foldl_addDependency] at dependencies
  simp only [bookkeeping, empty, DeletedFileSet.insertAll_empty]
  exact dependencies

/-- Decoding an encoded edit gives the edit back; its dependency map is the one
built from the written entries. -/
theorem decodeFrom_encodeFields : decodeFrom (edit.encodeFields order) =
      .ok { edit with dep := Dependency.empty.setParents order } :=
  (decodes_encodeFields fits perm).decodeFrom

end VersionEdit

end Db
end Doux
