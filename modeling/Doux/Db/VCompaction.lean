import Doux.Db.BuildTables
import Doux.Db.VersionBuilder

namespace Doux
namespace Db

open Foundation Util Table List

/-!
# Compactions of value files

With `MOD` 10 the value files form a tree of their own, with two levels.
`PickVCompaction` knows three rules.  Many files at level zero start a compaction that
also takes the overlapping files of level one; many small files are merged among
themselves; and so are files with many stale entries.

`DoVCompactionWork` reads all inputs and keeps, for each user key, the version with
the largest sequence number, unless that is a deletion.  What is left goes to one new
file.  Pointers into an input are redirected to the new file through the dependency
map, but only when no input came from level one.
-/

abbrev ValueFile := FileMetaData VKey

/-- The settings in `adgMod` that `PickVCompaction` reads.  `entrySize` is the assumed
size of an entry, `key_size + value_size + 16`. -/
structure VOptions where
  maxMergedSize : Nat
  smallFileAllowed : Nat
  invalidLimit : Nat
  entrySize : Nat

/-- The inputs of a compaction of value files, at level zero and at level one. -/
structure VCompaction where
  vinputs0 : List ValueFile
  vinputs1 : List ValueFile

def kL0VFileCompactionTrigger : Nat := 128

section Pick
variable (options : VOptions) (vfiles : Nat -> List ValueFile)

/-- The files at level zero that may still be merged. -/
def smallVFiles : List ValueFile :=
  (vfiles 0).filter (fun file => file.fileSize < options.maxMergedSize)

/-- The file overlaps the range of vkeys. -/
def VOverlaps (smallest largest : VKey) (file : ValueFile) : Prop :=
  (if file.smallest > smallest then file.smallest else smallest) ≤
    (if file.largest < largest then file.largest else largest)

instance (smallest largest : VKey) (file : ValueFile) :
    Decidable (VOverlaps smallest largest file) :=
  inferInstanceAs (Decidable (_ ≤ _))

/-- The range of the files at level zero, large ones included. -/
def vfileRange (first : ValueFile) (files : List ValueFile) : VKey × VKey :=
  files.foldl (fun range file =>
    (if file.smallest < range.1 then file.smallest else range.1,
      if file.largest > range.2 then file.largest else range.2)) (first.smallest, first.largest)

/-- The files with many stale entries.  `invalid_count` is zero in every file; what can
go wrong is the division by the assumed number of entries. -/
def staleVFiles : Except String (List ValueFile) := do
  assertThat (∀ file ∈ vfiles 0, file.fileSize / options.entrySize ≠ 0)
    "100 * f->invalid_count / (f->file_size / sz)"
  return (vfiles 0).filter (fun file =>
    100 * 0 / (file.fileSize / options.entrySize) > options.invalidLimit ∧
      file.fileSize < options.maxMergedSize)

def pickVCompaction : Except String (Option VCompaction) :=
  match vfiles 0 with
  | first :: rest =>
    if (first :: rest).length ≥ kL0VFileCompactionTrigger then
      let range := vfileRange first (first :: rest)
      .ok (some ⟨smallVFiles options vfiles,
        (vfiles 1).filter (fun file => VOverlaps range.1 range.2 file)⟩)
    else if (smallVFiles options vfiles).length ≥ options.smallFileAllowed then
      .ok (some ⟨smallVFiles options vfiles, []⟩)
    else do
      let stale <- staleVFiles options vfiles
      return if stale.length > 1 then some ⟨stale, []⟩ else none
  | [] => .ok (if 0 ≥ options.smallFileAllowed then some ⟨[], []⟩ else none)

/-- The range of the file meets the hull of the files at level zero. -/
def MeetsHull (file : ValueFile) : Prop :=
  ∃ vkey, (file.smallest ≤ vkey ∧ vkey ≤ file.largest) ∧
    (∃ low ∈ vfiles 0, low.smallest ≤ vkey) ∧ ∃ high ∈ vfiles 0, vkey ≤ high.largest

/-- The inputs are files of the version, none of them more often than there, and those
at level one are the files that meet the hull of level zero. -/
def VCompaction.Proper (vcompaction : VCompaction) : Prop :=
  vcompaction.vinputs0 <+ vfiles 0 ∧ vcompaction.vinputs1 <+ vfiles 1 ∧
    (vcompaction.vinputs1 ≠ [] -> forall file,
      file ∈ vcompaction.vinputs1 <-> file ∈ vfiles 1 ∧ MeetsHull vfiles file)

variable {vfiles}

theorem vfileRange_spec (first : ValueFile) (files : List ValueFile) (vkey : VKey) :
    ((vfileRange first files).1 ≤ vkey <-> ∃ low ∈ first :: files, low.smallest ≤ vkey) ∧
      (vkey ≤ (vfileRange first files).2 <-> ∃ high ∈ first :: files, vkey ≤ high.largest) := by
  induction files using List.reverseRecOn with
  | nil => simp [vfileRange]
  | append_singleton files last ih =>
    simp only [mem_cons, mem_append, not_mem_nil, or_false, or_and_right,
      exists_or, exists_eq_left] at ih ⊢
    rw [<- or_assoc, <- or_assoc, <- ih.1, <- ih.2, vfileRange, foldl_append, <- vfileRange]
    simp only [foldl_cons, foldl_nil]
    constructor
    · split
      · next less => exact ⟨Or.inr, Or.rec less.le.trans id⟩
      · next least => exact ⟨Or.inl, Or.rec id (le_of_not_gt least).trans⟩
    · split
      · next more => exact ⟨Or.inr, Or.rec (fun below => below.trans more.le) id⟩
      · next most => exact ⟨Or.inl, Or.rec id (fun below => below.trans (le_of_not_gt most))⟩

variable (vfiles)

theorem vOverlaps_iff {smallest largest : VKey} {file : ValueFile} :
    VOverlaps smallest largest file <-> ∃ vkey,
      (file.smallest ≤ vkey ∧ vkey ≤ file.largest) ∧ smallest ≤ vkey ∧ vkey ≤ largest := by
  simp only [VOverlaps, gt_iff_lt, <- max_def_lt, <- min_def_lt]
  constructor
  · intro ordered
    exact ⟨_, ⟨le_max_right _ _, (le_min_iff.mp ordered).1⟩, le_max_left _ _,
      (le_min_iff.mp ordered).2⟩
  · rintro ⟨_, ⟨starts, ends⟩, low, high⟩
    exact (max_le low starts).trans (le_min ends high)

/-- `PickVCompaction` picks proper inputs, or none, if many files or many small files are
at level zero, or if no file there is smaller than an entry; otherwise it divides by zero. -/
theorem pickVCompaction_proper_iff : (∃ picked, pickVCompaction options vfiles = .ok picked ∧
      ∀ vcompaction ∈ picked, vcompaction.Proper vfiles) <->
    kL0VFileCompactionTrigger ≤ (vfiles 0).length ∨
      options.smallFileAllowed ≤ (smallVFiles options vfiles).length ∨
      ∀ file ∈ vfiles 0, file.fileSize / options.entrySize ≠ 0 := by
  have alone {inputs : List ValueFile} (isPart : inputs <+ vfiles 0) :
      (VCompaction.mk inputs []).Proper vfiles :=
    ⟨isPart, nil_sublist _, fun nonempty => absurd rfl nonempty⟩
  unfold pickVCompaction
  cases found : vfiles 0 with
  | nil =>
    refine ⟨fun _ => Or.inr (Or.inr nofun), fun _ => ⟨_, rfl, fun vcompaction picked => ?_⟩⟩
    split at picked
    · cases picked
      exact alone (nil_sublist _)
    · cases picked
  | cons first rest =>
    have hull (file : ValueFile) : VOverlaps (vfileRange first (first :: rest)).1
        (vfileRange first (first :: rest)).2 file <-> MeetsHull vfiles file := by
      simp [vOverlaps_iff, vfileRange_spec, MeetsHull, found]
    simp only
    split
    · next many =>
        refine ⟨fun _ => Or.inl many, fun _ => ⟨_, rfl, fun vcompaction picked => ?_⟩⟩
        cases picked
        exact ⟨filter_sublist, filter_sublist, fun _ file => by
          rw [mem_filter, decide_eq_true_iff, hull]⟩
    · next few =>
        split
        · next small =>
            refine ⟨fun _ => Or.inr (Or.inl small), fun _ => ⟨_, rfl, fun vcompaction picked => ?_⟩⟩
            cases picked
            exact alone filter_sublist
        · next large =>
            simp only [staleVFiles, found, bind_assoc, assertThat_bind_eq_ok]
            constructor
            · rintro ⟨_, ⟨sized, _⟩, _⟩
              exact Or.inr (Or.inr sized)
            · intro sized
              refine ⟨_, ⟨(sized.resolve_left few).resolve_left large, rfl⟩, ?_⟩
              intro _ picked
              split at picked
              · cases picked
                exact alone (found ▸ filter_sublist)
              · cases picked

end Pick

/-- One file that is smaller than the assumed size of an entry. -/
theorem pickVCompaction_divides_by_zero :
    (pickVCompaction ⟨4096, 2, 30, 1064⟩ (fun _ => [⟨5, 200, ⟨[], 257, 0⟩, ⟨[], 257, 0⟩⟩])).map
      (fun _ => ()) = .error "100 * f->invalid_count / (f->file_size / sz)" := by
  decide +kernel

/-- An entry of a value table with its key parsed. -/
structure VEntry where
  vkey : VKey
  value : Bytes
deriving DecidableEq

namespace VEntry

def sequence (entry : VEntry) : Nat := entry.vkey.tag.toNat / 256

/-- `kTypeDeletion` is zero. -/
def isDeletion (entry : VEntry) : Bool := decide (entry.vkey.tag.toNat % 256 = 0)

/-- The entry as it is written to a table. -/
def row (entry : VEntry) : KeyValue := (entry.vkey.encode, entry.value)

end VEntry

/-- The entries of a value table. -/
def readVTable (blocks : List (Block KeyValue)) : Except String (List VEntry) :=
  (tableEntries blocks).mapM (fun row => do
    let vkey <- VKey.decode row.1
    return ⟨vkey, row.2⟩)

/-- Add an entry to `key_source_map`, unless the map has a version of the user key that
is not older. -/
def keepNewest (kept : List VEntry) (entry : VEntry) : List VEntry :=
  match kept.find? (fun other => other.vkey.userKey = entry.vkey.userKey) with
  | none => kept ++ [entry]
  | some other =>
    if entry.sequence > other.sequence then
      kept.map (fun other => if other.vkey.userKey = entry.vkey.userKey then entry else other)
    else kept

/-- The entries that are written, in the order in which they are. -/
def mergedValues (entries : List VEntry) : List VEntry :=
  ((entries.foldl keepNewest []).filter (fun entry => !entry.isDeletion)).insertionSort
    (fun a b => a.vkey ≤ b.vkey)

namespace VCompaction

/-- All entries of the input files, in the order in which they are read. -/
def inputValues (vtables : Nat -> List (Block KeyValue)) (vcompaction : VCompaction) :
    Except String (List VEntry) := do
  let tables <- (vcompaction.vinputs0 ++ vcompaction.vinputs1).mapM
    (fun file => readVTable (vtables file.number))
  return tables.flatten

/-- The level to which `InstallCompactionResults` adds the output. -/
def outputLevel (vcompaction : VCompaction) : Nat :=
  if vcompaction.vinputs1.length > 0 then 1
  else if vcompaction.vinputs0.length ≥ 8 then 1 else 0

/-- `AddVInputDeletions`. -/
def deletions {K : Type} (vcompaction : VCompaction) (edit : VersionEdit K VKey) :
    VersionEdit K VKey :=
  vcompaction.vinputs1.foldl (fun edit file => edit.deleteVFile 1 file.number)
    (vcompaction.vinputs0.foldl (fun edit file => edit.deleteVFile 0 file.number) edit)

/-- `InstallCompactionResults`: the edit for an output file. -/
def resultEdit {K : Type} (vcompaction : VCompaction) (output : ValueFile) :
    VersionEdit K VKey :=
  let edit := vcompaction.deletions VersionEdit.empty
  let edit := if output.fileSize > 0 then edit.addVFile vcompaction.outputLevel output else edit
  if vcompaction.vinputs1.length = 0 then
    vcompaction.vinputs0.foldl (fun edit file => edit.addDependency output.number file.number) edit
  else edit

end VCompaction

/-- The output of a compaction of value files. -/
structure VOutput where
  blocks : List (Block KeyValue)
  smallest : VKey
  largest : VKey

/-- Write the merged entries to a table. -/
def writeVOutput (options : BlockOptions) : List VEntry -> Except String (Option VOutput)
  | [] => .ok none
  | first :: rest => do
    let table <- buildTable (keyValueFormat vkeyLess) options ((first :: rest).map VEntry.row)
    return some ⟨table.blocks, first.vkey, (rest.getLastD first).vkey⟩

/-- `DoVCompactionWork` up to the installation of its results: the table it writes, if
any entry is left. -/
def VCompaction.output (options : BlockOptions) (vtables : Nat -> List (Block KeyValue))
    (vfiles : Nat -> List ValueFile) (vcompaction : VCompaction) :
    Except String (Option VOutput) := do
  assertThat (vfiles 0 ≠ []) "versions_->NumLevelVFiles(compact->compaction->level()) > 0"
  let entries <- vcompaction.inputValues vtables
  writeVOutput options (mergedValues entries)

end Db
end Doux
