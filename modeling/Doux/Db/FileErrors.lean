import Doux.Db.VCompactionWork
import Doux.Table.VMergerScan

namespace Doux
namespace Db

open Foundation Util Table List

/-!
# File operations that fail in a flush and in a scan

`BuildDuTable` writes a value table and then a key table, with one variable for the status
of both.  Opening the key table overwrites what happened to the value table, so a flush may
succeed with a key table whose values are gone.

`NewVIterator` reads the value files that may have entries of a box.  A file that cannot be
opened has no iterator, and the status is made from the files that have one: a scan shows
the rows of the other files and ends with a success.
-/

/-- The status after a second operation, which is only tried after a success. -/
def IoStatus.andThen (first second : IoStatus) : IoStatus := if first = .ok then second else first

theorem IoStatus.andThen_eq_ok {first second : IoStatus} :
    first.andThen second = .ok <-> first = .ok ∧ second = .ok := by
  cases first <;> simp [andThen]

/-- What the environment answers while one table is written.  A failed `Append` comes back
from `Finish`. -/
structure FileCalls where
  opened : IoStatus
  finish : IoStatus
  sync : IoStatus
  close : IoStatus
  deletes : IoStatus

/-- A file that is left in the directory. -/
structure TableFile where
  written : Bool
  synced : Bool
deriving DecidableEq

namespace FileCalls

/-- The status once the table is closed. -/
def status (calls : FileCalls) : IoStatus := calls.finish.andThen (calls.sync.andThen calls.close)

/-- The file is kept after a success, when it is not empty.  The status of `DeleteFile` is
not looked at. -/
def left (calls : FileCalls) (status : IoStatus) : Option TableFile :=
  if status = .ok ∨ calls.deletes = .failed then
    some ⟨calls.finish = .ok, calls.finish = .ok ∧ calls.sync = .ok⟩
  else none

theorem left_of_ok {calls : FileCalls} (fine : calls.status = .ok) :
    calls.left .ok = some ⟨true, true⟩ := by
  rcases IoStatus.andThen_eq_ok.mp fine with ⟨finish, later⟩
  simp [left, finish, (IoStatus.andThen_eq_ok.mp later).1]

end FileCalls

/-- The answers of one call of `BuildDuTable`: to both tables, from the iterator of the
memtable, and from the iterator that verifies the key table. -/
structure DuCalls where
  value : FileCalls
  iter : IoStatus
  key : FileCalls
  usable : IoStatus

/-- What happened to the value table. -/
def DuCalls.valueStatus (calls : DuCalls) : IoStatus :=
  calls.value.opened.andThen (calls.iter.andThen calls.value.status)

/-- What happened to the key table. -/
def DuCalls.keyStatus (calls : DuCalls) : IoStatus := calls.key.status.andThen calls.usable

structure DuResult where
  status : IoStatus
  vfile : Option TableFile
  file : Option TableFile
deriving DecidableEq

/-- A success means that both tables are there, and a failure of the value table means that
there is no key table and no success. -/
def DuResult.Reports (calls : DuCalls) (result : DuResult) : Prop :=
  (result.status = .ok -> result.vfile = some ⟨true, true⟩ ∧ result.file = some ⟨true, true⟩) ∧
  (calls.valueStatus = .failed -> result.file = none ∧ result.status = .failed)

section
variable [LinearOrder UserKey]

/-- The part of `BuildDuTable` that writes the value table. -/
def buildValueTable (mod : Nat) (options : BlockOptions) (beyond : KeyValue -> BitVec 64)
    (entries : List KeyValue) : Except String (List (Block KeyValue)) := do
  let kvs <- sortValues mod (entries.map (fun entry => (tmpKey mod beyond entry, entry.2)))
  let _ <- tableEnds mod (kvs.map Prod.fst)
  let vtable <- buildTable (keyValueFormat (valueLess mod)) options kvs
  return vtable.blocks

/-- `BuildDuTable` with the answers of the environment.  Without entries there is no value
table to open, and the first key is read all the same. -/
def buildDuTableFiles (mod : Nat) (options : BlockOptions) (beyond : KeyValue -> BitVec 64)
    (number : Nat) (entries : List KeyValue) (calls : DuCalls) : Except String DuResult :=
  if entries = [] ∧ calls.key.opened = .failed ∨ entries ≠ [] ∧ calls.value.opened = .failed then
    .ok ⟨.failed, none, none⟩
  else do
    assertThat (entries ≠ []) "kvs[0]"
    let _ <- buildValueTable mod options beyond entries
    let vfile := calls.value.left calls.valueStatus
    if calls.key.opened = .failed then .ok ⟨.failed, vfile, none⟩
    else do
      let _ <- buildDuTable mod options beyond number entries
      return ⟨calls.keyStatus, vfile, calls.key.left calls.keyStatus⟩

/-- `BuildDuTable` says the truth exactly if the value table was written, or a file could not
be opened, or the key table failed as well and could be deleted. -/
theorem buildDuTableFiles_reports_iff {mod : Nat} {options : BlockOptions}
    {beyond : KeyValue -> BitVec 64} {number : Nat} {entries : List KeyValue} {calls : DuCalls}
    {result : DuResult}
    (run : buildDuTableFiles mod options beyond number entries calls = .ok result) :
    result.Reports calls <->
      calls.valueStatus = .ok ∨ calls.value.opened = .failed ∨ calls.key.opened = .failed ∨
        calls.keyStatus = .failed ∧ calls.key.deletes = .ok := by
  unfold buildDuTableFiles at run
  split at run
  · next closed =>
      cases run
      have opened := closed.symm.imp And.right And.right
      exact iff_of_true (by simp [DuResult.Reports]) (Or.inr (opened.imp_right Or.inl))
  · next opened =>
      rcases assertThat_bind_eq_ok.mp run with ⟨nonempty, work⟩
      rcases bind_eq_ok.mp work with ⟨_, _, rest⟩
      split at rest
      · next closed =>
          cases rest
          exact iff_of_true (by simp [DuResult.Reports]) (Or.inr (Or.inr (Or.inl closed)))
      · next keyOpened =>
          rcases bind_eq_ok.mp rest with ⟨_, _, finished⟩
          cases finished
          cases values : calls.valueStatus with
          | ok =>
            refine iff_of_true ⟨fun keys => ?_, by simp [values]⟩ (Or.inl rfl)
            dsimp only at keys
            rcases IoStatus.andThen_eq_ok.mp values with ⟨_, later⟩
            rw [keys]
            exact ⟨FileCalls.left_of_ok (IoStatus.andThen_eq_ok.mp later).2,
              FileCalls.left_of_ok (IoStatus.andThen_eq_ok.mp keys).1⟩
          | failed =>
            have valueOpened : calls.value.opened ≠ .failed :=
              fun closed => opened (Or.inr ⟨nonempty, closed⟩)
            cases keys : calls.keyStatus <;> cases deletes : calls.key.deletes <;>
              simp [DuResult.Reports, FileCalls.left, values, deletes, keyOpened, valueOpened]

end

section Bytewise

open Bytewise

/-- Only the sync of the value table may fail. -/
def duCalls (sync : IoStatus) : DuCalls :=
  ⟨⟨.ok, .ok, sync, .ok, .ok⟩, .ok, ⟨.ok, .ok, .ok, .ok, .ok⟩, .ok⟩

/-- The sync of the value table fails and its file is deleted, but the flush succeeds and
keeps the key table. -/
theorem buildDuTableFiles_unsynced : (duCalls .failed).valueStatus = .failed ∧
      (buildDuTableFiles 10 ⟨4096, 16⟩ (fun _ => 0) 5 (oneEntry.map Entry.bytes)
        (duCalls .failed)).toOption = some ⟨.ok, none, some ⟨true, true⟩⟩ := by
  decide +kernel

/-- The sync of the key table fails as well and its file is deleted: the flush fails. -/
theorem buildDuTableFiles_reports_bothUnsynced :
    ∃ result, buildDuTableFiles 10 ⟨4096, 16⟩ (fun _ => 0) 5 (oneEntry.map Entry.bytes)
        { duCalls .failed with key := (duCalls .failed).value } = .ok result ∧
      result.Reports { duCalls .failed with key := (duCalls .failed).value } := by
  have returns : (buildDuTableFiles 10 ⟨4096, 16⟩ (fun _ => 0) 5 (oneEntry.map Entry.bytes)
      { duCalls .failed with key := (duCalls .failed).value }).toOption.isSome = true := by
    decide +kernel
  rcases exists_ok_of_isSome returns with ⟨result, run⟩
  exact ⟨result, run, (buildDuTableFiles_reports_iff run).mpr
    (Or.inr (Or.inr (Or.inr ⟨rfl, rfl⟩)))⟩

end Bytewise

/-- The table is in `vtables_`, or it can be put there. -/
def InputIo.Opens (io : InputIo) : Prop := io = .cached ∨ io = .opens

instance (io : InputIo) : Decidable io.Opens := inferInstanceAs (Decidable (_ ∨ _))

/-- A value table whose keys have a type that `ParseInternalVKey` knows. -/
structure TypedTable extends VTable where
  typed : ∀ entry ∈ entries, ∃ type, ValueType.ofCode (entry.key.tag.toNat % 256) = some type

/-- The value files of a database: what happens when one is opened, and then the table that
is read from it and whether its blocks can be read. -/
structure VDisk where
  io : Nat -> InputIo
  tables : Nat -> TypedTable
  reads : Nat -> IoStatus

/-- A query: `start` and `end` in its options, the box, and the sequence number of the
snapshot.  `target` is the internal key that `Seek` is called with, as a table takes it. -/
structure VQuery where
  start : BitVec 64
  end_ : BitVec 64
  box : Zorder.Box
  sequence : Nat
  target : VKey

/-- The sort keys of the file meet the query. -/
def VQuery.Meets (query : VQuery) (file : ValueFile) : Prop :=
  ¬ (query.start > file.largest.sortKey ∨ query.end_ < file.smallest.sortKey)

instance (query : VQuery) (file : ValueFile) : Decidable (query.Meets file) :=
  inferInstanceAs (Decidable (¬ _))

/-- `AddVIterators` with `MOD` 10: the files for which it makes an iterator.  A file of level
zero is opened whatever its keys are. -/
def VQuery.addVIterators (query : VQuery) (disk : VDisk) (version : Version InternalKey VKey) :
    List ValueFile :=
  (version.vfiles 0).filter (fun file => (disk.io file.number).Opens) ++
    (version.vfiles 1).filter (fun file => query.Meets file ∧ (disk.io file.number).Opens)

/-- `VMergingIterator::status`: the loop stops at the first child with an error. -/
def mergedStatus : List IoStatus -> IoStatus -> IoStatus
  | [], last => last
  | status :: children, _ => if status = .ok then mergedStatus children .ok else status

/-- The status of what `NewVMergingIterator` returns: an empty iterator, the only child or a
`VMergingIterator`. -/
def vinternalStatus : List IoStatus -> IoStatus
  | [] => .ok
  | [only] => only
  | children => mergedStatus children .ok

/-- `DBVIter` in a forward scan: `status_`, the key that is skipped, and the rows so far. -/
structure DBVScan where
  status : IoStatus
  skip : Option Bytes
  rows : List (Bytes × Bytes)
deriving DecidableEq

/-- One pass of the loop in `FindNextUserEntry`.  A row ends the loop, and the `Next` after it
returns to the entry of the row and skips its key. -/
def DBVScan.visit (sequence : Nat) (scan : DBVScan) (entry : Table.Entry) : DBVScan :=
  match ValueType.ofCode (entry.key.tag.toNat % 256) with
  | none => { scan with status := .failed }
  | some type =>
    if entry.key.tag.toNat / 256 ≤ sequence then
      match type with
      | .deletion => { scan with skip := some entry.key.userKey }
      | .value =>
        if scan.skip = some entry.key.userKey then scan
        else ⟨scan.status, some entry.key.userKey,
          scan.rows ++ [(entry.key.userKey, entry.value)]⟩
    else scan

/-- Use an iterator from `NewVIterator`: `Seek`, then `Next` until the iterator is invalid,
then `status`. -/
def VQuery.scan (query : VQuery) (disk : VDisk) (version : Version InternalKey VKey)
    (ctzZero : Nat) (less : VKey -> VKey -> Bool) (fuel : Nat) :
    Option (Except String DBVScan) :=
  let files := query.addVIterators disk version
  let tables := files.map (fun file => (disk.tables file.number).toVTable)
  (Table.scan less (query.box.region ctzZero) fuel query.target
      (tables.map VTable.entries)).map (fun result => result.map (fun entries =>
    let scan := entries.foldl (DBVScan.visit query.sequence) ⟨.ok, none, []⟩
    ⟨scan.status.andThen (vinternalStatus (files.map (fun file => disk.reads file.number))),
      scan.skip, scan.rows⟩))

theorem vinternalStatus_eq_ok {children : List IoStatus} (fine : ∀ status ∈ children, status = .ok) :
    vinternalStatus children = .ok := by
  have merged : mergedStatus children .ok = .ok := by
    induction children with
    | nil => rfl
    | cons status children ih =>
      rcases forall_mem_cons.mp fine with ⟨here, later⟩
      rw [mergedStatus, if_pos here, ih later]
  match children with
  | [] => rfl
  | [only] => exact fine only mem_cons_self
  | _ :: _ :: _ => exact merged

/-- A key with a known type does not change the status. -/
theorem DBVScan.status_visit {entry : Table.Entry} {type : ValueType}
    (typed : ValueType.ofCode (entry.key.tag.toNat % 256) = some type) (sequence : Nat)
    (scan : DBVScan) : (scan.visit sequence entry).status = scan.status := by
  unfold visit
  rw [typed]
  dsimp only
  split
  · cases type
    · rfl
    · dsimp only
      split <;> rfl
  · rfl

section
variable (query : VQuery) (disk : VDisk) (version : Version InternalKey VKey)
  (readable : ∀ file ∈ query.addVIterators disk version, disk.reads file.number = .ok)
  (ctzZero : Nat) (less : VKey -> VKey -> Bool)
include readable

/-- When the blocks of all opened files can be read, a scan that comes to its end reports a
success. -/
theorem VQuery.scan_status : ∃ bound result, (∀ fuel, bound ≤ fuel ->
        query.scan disk version ctzZero less fuel = some result) ∧
      ∀ scan, result = .ok scan -> scan.status = .ok := by
  rcases scan_mem ctzZero query.box less query.target
    ((query.addVIterators disk version).map (fun file => (disk.tables file.number).toVTable)) with
    ⟨bound, result, runs, inTables⟩
  refine ⟨bound, _, fun fuel enough => by rw [VQuery.scan, runs fuel enough]; rfl, ?_⟩
  intro scan isOk
  cases result with
  | error text => cases isOk
  | ok entries =>
    cases isOk
    refine IoStatus.andThen_eq_ok.mpr ⟨?_, vinternalStatus_eq_ok (forall_mem_map.mpr readable)⟩
    refine foldlRecOn (motive := fun scan : DBVScan => scan.status = .ok) entries _ rfl
      (fun scan fine entry member => ?_)
    rcases inTables entries rfl entry member with ⟨_, isTable, inside⟩
    rcases mem_map.mp isTable with ⟨file, _, rfl⟩
    rcases (disk.tables file.number).typed entry inside with ⟨type, typed⟩
    rw [scan.status_visit typed]
    exact fine

/-- A scan over readable tables ends, unless an assertion fails.  It reports every file that
could not be opened exactly if there is none that may have entries of the query. -/
theorem scan_reports_missing_iff : ∃ bound result, (∀ fuel, bound ≤ fuel ->
        query.scan disk version ctzZero less fuel = some result) ∧
      ∀ scan, result = .ok scan ->
        (((∃ level < numVLevels 10, ∃ file ∈ version.vfiles level,
            query.Meets file ∧ ¬ (disk.io file.number).Opens) -> scan.status ≠ .ok) <->
          ∀ level < numVLevels 10, ∀ file ∈ version.vfiles level,
            query.Meets file -> (disk.io file.number).Opens) := by
  rcases query.scan_status disk version readable ctzZero less with ⟨bound, result, runs, fine⟩
  refine ⟨bound, result, runs, fun scan isOk => ?_⟩
  simp [fine scan isOk]

end

/-- A version with three files of level zero, whose keys have the sort key 3. -/
def threeVFiles : Version InternalKey VKey where
  files := fun _ => []
  vfiles := fun level => if level = 0 then
    [5, 6, 7].map (fun number => ⟨number, 1, ⟨[UInt8.ofNat number], 257, 3⟩,
      ⟨[UInt8.ofNat number], 257, 3⟩⟩) else []
  dep := .empty

/-- Each file has one row, and the one with the given number cannot be opened. -/
def oneRowDisk (lost : Nat) : VDisk where
  io := fun number => if number = lost then .openFails else .opens
  tables := fun number => ⟨⟨[⟨⟨[UInt8.ofNat number], 257, 3⟩, [7]⟩], pairwise_singleton _ _⟩,
    forall_mem_singleton.mpr ⟨.value, by simp [ValueType.ofCode]⟩⟩
  reads := fun _ => .ok

/-- The box of the point (1, 1), whose code is 3. -/
def pointQuery : VQuery := ⟨3, 3, ⟨1, 1, 1, 1, by decide, by decide⟩, 9, ⟨[], 0, 0⟩⟩

/-- Without the third file, the rows of the other two are shown and the status is a success. -/
theorem scan_lostThird : (∃ file ∈ threeVFiles.vfiles 0,
      pointQuery.Meets file ∧ ¬ ((oneRowDisk 7).io file.number).Opens) ∧
      (pointQuery.scan (oneRowDisk 7) threeVFiles 0 (fun _ _ => false) 9).map Except.toOption =
        some (some ⟨.ok, some [6], [([5], [7]), ([6], [7])]⟩) := by
  decide +kernel

theorem scan_reports_missing_allOpen : ∃ bound result, (∀ fuel, bound ≤ fuel ->
      pointQuery.scan (oneRowDisk 8) threeVFiles 0 (fun _ _ => false) fuel = some result) ∧
    ∀ scan, result = .ok scan -> (∃ level < numVLevels 10, ∃ file ∈ threeVFiles.vfiles level,
      pointQuery.Meets file ∧ ¬ ((oneRowDisk 8).io file.number).Opens) -> scan.status ≠ .ok := by
  rcases scan_reports_missing_iff pointQuery (oneRowDisk 8) threeVFiles (fun _ _ => rfl) 0
    (fun _ _ => false) with ⟨bound, result, runs, reports⟩
  exact ⟨bound, result, runs, fun scan isOk => (reports scan isOk).mpr (by decide)⟩

end Db
end Doux
