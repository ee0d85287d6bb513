import Mathlib.Data.List.Sort
import Doux.Mod.VLog

namespace Doux
namespace Mod

open Foundation Util List

/-!
# Grouped value logs and their collection

With `MOD` 12 the values are in several value logs.  The hash of a key decides the
group, and the tree has for each key the group, the address and the size of the value.
`RunCoLocationGC` and `runAllColocationGC` read the records of a group, sort them and
add them to the logs again under new addresses.

The records that are read are slices into the scratch space of the log, which every
read overwrites.  The tree is described by what was written to it last for each key.
-/

/-- The loop of `leveldb::Hash` over four bytes at a time, with what remains at the end. -/
def hashLoop (h : BitVec 32) : Bytes -> BitVec 32
  | b0 :: b1 :: b2 :: b3 :: rest =>
    let h := (h + BitVec.ofNat 32 (decodeFixed32 [b0, b1, b2, b3])) * 0xc6a4a793
    hashLoop (h ^^^ (h >>> 16)) rest
  | [] => h
  | rest =>
    let h := (h + BitVec.ofNat 32 (decodeFixed32 rest)) * 0xc6a4a793
    h ^^^ (h >>> 24)

/-- `leveldb::Hash` with seed 0. -/
def hash (data : Bytes) : BitVec 32 := hashLoop (BitVec.ofNat 32 data.length * 0xc6a4a793) data

/-- The group, the address and the size of a value, as the tree has them. -/
structure GroupPointer where
  group : Nat
  address : Nat
  size : Nat
deriving DecidableEq

def GroupPointer.encode (pointer : GroupPointer) : Bytes :=
  encodeFixed32 pointer.group ++ (encodeFixed64 pointer.address ++ encodeFixed32 pointer.size)

def GroupPointer.decode (value : Bytes) : GroupPointer :=
  ⟨decodeFixed32 value, decodeFixed64 (value.drop 4), decodeFixed32 (value.drop 12)⟩

/-- The tree and the groups.  `index` has the writes to the tree, the newest first, and
nothing for a deletion; `writeCount` is the counter of `sPut`. -/
structure GroupedStore where
  index : List (Bytes × Option Bytes)
  groups : List VLog
  writeCount : Nat

inductive GetStatus where
  | ok
  | notFound
deriving DecidableEq

namespace GroupedStore

def dbPut (store : GroupedStore) (key value : Bytes) : GroupedStore :=
  { store with index := (key, some value) :: store.index }

def dbDelete (store : GroupedStore) (key : Bytes) : GroupedStore :=
  { store with index := (key, none) :: store.index }

/-- `PreGet`: a key that was never written counts as found. -/
def preGet (store : GroupedStore) (key : Bytes) : GetStatus :=
  match store.index.find? (fun write => write.1 = key) with
  | some (_, none) => .notFound
  | _ => .ok

/-- `GroupValueLog::GetGroupIndex`. -/
def getGroupIndex (store : GroupedStore) (key : Bytes) : Nat :=
  (hash key).toNat % store.groups.length

/-- Add a record to a group, and its pointer to the tree under the key. -/
def addRecord (store : GroupedStore) (group : Nat) (key value : Bytes) :
    Except String (GroupedStore × GroupPointer) :=
  match store.groups[group]? with
  | none => .error "group_vlogs[group_index]"
  | some log =>
    let added := log.addRecord2 key value
    let pointer : GroupPointer := ⟨group, added.2.address, value.length⟩
    .ok ({ store with groups := store.groups.set group added.1 }.dbPut key pointer.encode, pointer)

/-- `DBImpl::Put`. -/
def put (store : GroupedStore) (key value : Bytes) : Except String GroupedStore := do
  return (<- store.addRecord (store.getGroupIndex key) key value).1

/-- `GroupValueLog::ReadRecord`, whose group number is a signed integer. -/
def readRecord (store : GroupedStore) (pointer : GroupPointer) : Except String Bytes :=
  if pointer.group ≥ 2 ^ 31 then .ok []
  else match store.groups[pointer.group]? with
    | none => .ok []
    | some log => log.readRecord pointer.address pointer.size

/-- Read what a value of the tree points to.  The value must have room for a pointer. -/
def dereference (store : GroupedStore) (value : Bytes) : Except String Bytes := do
  assertThat (16 ≤ value.length) "value->c_str()"
  store.readRecord (GroupPointer.decode value)

/-- `DBImpl::Get` with the value that the caller passes in.  A key that was never
written leaves the value as it is and counts as found. -/
def get (store : GroupedStore) (key value : Bytes) : Except String (GetStatus × Bytes) :=
  match store.index.find? (fun write => write.1 = key) with
  | some (_, none) => .ok (.notFound, value)
  | some (_, some found) => do return (.ok, <- store.dereference found)
  | none => do return (.ok, <- store.dereference value)

def readSize (log : VLog) (offset : Nat) : Except String (Nat × VLog) := do
  match <- log.readRecord2 offset 4 with
  | (.scratch _, log) => return (decodeFixed32 log.scratch, log)
  | (.dangling _, _) => .error "destroyed string"

/-- The loop that reads the records of a group.  Every record takes at least eight
bytes, so the size of the log is enough fuel. -/
def collectLoop (groupLogSize : Nat) :
    Nat -> VLog -> Nat -> List (VLog.Slice × VLog.Slice) ->
      Except String (VLog × List (VLog.Slice × VLog.Slice))
  | 0, log, _, records => .ok (log, records)
  | fuel + 1, log, offset, records =>
    if offset < groupLogSize then do
      let keySize <- readSize log offset
      let key <- keySize.2.readRecord2 (offset + 4) keySize.1
      let valueSize <- readSize key.2 (offset + 4 + keySize.1)
      let value <- valueSize.2.readRecord2 (offset + 8 + keySize.1) valueSize.1
      collectLoop groupLogSize fuel value.2 (offset + 8 + keySize.1 + valueSize.1)
        (records ++ [(key.1, value.1)])
    else .ok (log, records)

/-- The records in the order in which they are added again.  Of records that compare
equal the order is left open; here it is kept. -/
def sortRecords (useSecondaryIndex : Bool) (records : List (Bytes × Bytes)) :
    List (Bytes × Bytes) :=
  if useSecondaryIndex then records.insertionSort (fun a b => a.2 ≤ b.2)
  else records.insertionSort (fun a b => a.1 ≤ b.1)

/-- The key of the secondary index: 12 bytes from the address of the value and 24 bytes
from the address of the key, both of which are the scratch space. -/
def secondaryKey (log : VLog) : Except String Bytes := do
  assertThat (24 ≤ log.scratch.length) "record.first.data()"
  return "000index".toUTF8.toList ++ log.scratch.take 12 ++ log.scratch.take 24

/-- Add one record again, to the group that `place` gives for its key. -/
def addAgain (useSecondaryIndex : Bool) (place : GroupedStore -> Bytes -> Nat) (log : VLog)
    (store : GroupedStore) (record : Bytes × Bytes) : Except String GroupedStore := do
  let added <- store.addRecord (place store record.1) record.1 record.2
  if useSecondaryIndex then
    return added.1.dbPut (<- secondaryKey log) added.2.encode
  else return added.1

/-- Collect one group.  `resets` says whether the log is emptied first. -/
def collectGroup (useSecondaryIndex resets : Bool) (place : GroupedStore -> Bytes -> Nat)
    (store : GroupedStore) (group : Nat) : Except String GroupedStore :=
  match store.groups[group]? with
  | none => .error "group_vlogs[group_index]"
  | some log => do
    let collected <- collectLoop log.vlogSize log.vlogSize log 0 []
    let log := if resets then collected.1.reset else collected.1
    let records <- collected.2.mapM (fun slices => do
      return (<- log.sliceBytes slices.1, <- log.sliceBytes slices.2))
    (sortRecords useSecondaryIndex records).foldlM (addAgain useSecondaryIndex place log)
      { store with groups := store.groups.set group log }

/-- `RunCoLocationGC`, with the groups that `rand` chooses. -/
def runCoLocationGC (useSecondaryIndex : Bool) (store : GroupedStore) (choices : List Nat) :
    Except String GroupedStore :=
  choices.foldlM (fun store group =>
    store.collectGroup useSecondaryIndex true (fun _ _ => group) group) store

/-- `runAllColocationGC`, which does not empty the logs. -/
def runAllColocationGC (useSecondaryIndex : Bool) (store : GroupedStore) :
    Except String GroupedStore :=
  (List.range store.groups.length).foldlM (collectGroup useSecondaryIndex false getGroupIndex) store

/-- `DBImpl::sPut`.  Every 100000th call collects groups first, unless there is a
secondary index. -/
def sPut (useSecondaryIndex : Bool) (choices : List Nat) (store : GroupedStore)
    (key skey value : Bytes) : Except String GroupedStore := do
  let store := if useSecondaryIndex ∧ store.preGet key = .ok then store.dbDelete skey else store
  let due := store.writeCount + 1 ≥ 100000
  let store <- if due ∧ ¬ useSecondaryIndex then store.runCoLocationGC useSecondaryIndex choices
    else .ok store
  let store := { store with writeCount := if due then 0 else store.writeCount + 1 }
  let added <- store.addRecord (store.getGroupIndex key) key value
  return added.1.dbPut skey added.2.encode

/-- Two stores that answer every lookup alike. -/
structure Agrees (before after : GroupedStore) : Prop where
  index : after.index = before.index
  reads : forall pointer, after.readRecord pointer = before.readRecord pointer

theorem Agrees.refl (store : GroupedStore) : Agrees store store := ⟨rfl, fun _ => rfl⟩

theorem Agrees.trans {first second third : GroupedStore} (left : Agrees first second)
    (right : Agrees second third) : Agrees first third :=
  ⟨right.index.trans left.index, fun pointer => (right.reads pointer).trans (left.reads pointer)⟩

theorem Agrees.get {before after : GroupedStore} (agrees : Agrees before after)
    (key value : Bytes) : after.get key value = before.get key value := by
  have same (found : Bytes) : after.dereference found = before.dereference found := by
    unfold dereference
    rw [agrees.reads]
  unfold GroupedStore.get
  rw [agrees.index]
  simp only [same]

/-- A group without a record, in its file or in its buffer. -/
def Vacant (store : GroupedStore) (group : Nat) : Prop :=
  ∃ log ∈ store.groups[group]?, log.vlogSize = 0 ∧ log.buffer = []

instance (store : GroupedStore) (group : Nat) : Decidable (store.Vacant group) := by
  unfold Vacant
  infer_instance

variable {store : GroupedStore} {log : VLog}

/-- A group with nothing in its file is only replaced by the log that was read. -/
theorem collectGroup_unflushed {group : Nat}
    (here : store.groups[group]? = some log) (unflushed : log.vlogSize = 0)
    (useSecondaryIndex resets : Bool) (place : GroupedStore -> Bytes -> Nat) :
    store.collectGroup useSecondaryIndex resets place group =
      .ok { store with groups := store.groups.set group (if resets then log.reset else log) } := by
  unfold collectGroup
  rw [here]
  dsimp only
  rw [unflushed]
  change (sortRecords useSecondaryIndex []).foldlM _ _ = _
  have none : sortRecords useSecondaryIndex [] = [] := by
    unfold sortRecords
    split <;> rfl
  rw [none]
  rfl

theorem readRecord_reset (unflushed : log.vlogSize = 0) (empty : log.buffer = [])
    (address size : Nat) : log.reset.readRecord address size = log.readRecord address size := by
  unfold VLog.readRecord VLog.reset
  rw [unflushed, empty]
  rfl

theorem agrees_reset {group : Nat}
    (here : store.groups[group]? = some log) (unflushed : log.vlogSize = 0)
    (empty : log.buffer = []) :
    Agrees store { store with groups := store.groups.set group log.reset } where
  index := rfl
  reads := by
    intro pointer
    have bound : group < store.groups.length := (List.getElem?_eq_some_iff.mp here).1
    unfold GroupedStore.readRecord
    by_cases same : group = pointer.group
    · rw [<- same, getElem?_set_self bound, here]
      dsimp only
      rw [readRecord_reset unflushed empty]
    · rw [getElem?_set_ne same]

theorem Vacant.reset {group other : Nat} (vacant : store.Vacant other)
    (log : VLog) : Vacant { store with groups := store.groups.set group log.reset } other := by
  rcases vacant with ⟨old, here, unflushed, empty⟩
  have bound : other < store.groups.length := (List.getElem?_eq_some_iff.mp here).1
  by_cases same : group = other
  · refine ⟨log.reset, ?_, rfl, rfl⟩
    subst same
    exact getElem?_set_self bound
  · refine ⟨old, ?_, unflushed, empty⟩
    exact (getElem?_set_ne same).trans here

/-- Collecting groups without records keeps the answers. -/
theorem runCoLocationGC_vacant (useSecondaryIndex : Bool)
    {choices : List Nat} (vacant : ∀ group ∈ choices, store.Vacant group) :
    ∃ after, store.runCoLocationGC useSecondaryIndex choices = .ok after ∧ Agrees store after := by
  induction choices generalizing store with
  | nil => exact ⟨store, rfl, Agrees.refl store⟩
  | cons group choices ih =>
    rcases forall_mem_cons.mp vacant with ⟨⟨log, here, unflushed, empty⟩, others⟩
    have next := collectGroup_unflushed here unflushed useSecondaryIndex true (fun _ _ => group)
    rcases ih (fun other member => (others other member).reset log) with ⟨after, run, agrees⟩
    refine ⟨after, ?_, (agrees_reset here unflushed empty).trans agrees⟩
    unfold runCoLocationGC
    rw [foldlM_cons, next]
    exact run

/-- Without a flushed record there is nothing to collect again. -/
theorem runAllColocationGC_unflushed (useSecondaryIndex : Bool)
    (unflushed : ∀ log ∈ store.groups, log.vlogSize = 0) :
    store.runAllColocationGC useSecondaryIndex = .ok store := by
  have visit {group : Nat} (bound : group < store.groups.length) :
      store.collectGroup useSecondaryIndex false getGroupIndex group = .ok store := by
    have here : store.groups[group]? = some store.groups[group] := getElem?_eq_getElem bound
    have next := collectGroup_unflushed here (unflushed _ (getElem_mem bound))
      useSecondaryIndex false getGroupIndex
    rw [if_neg Bool.false_ne_true, set_getElem_self] at next
    exact next
  have visits (groups : List Nat) (bounds : ∀ group ∈ groups, group < store.groups.length) :
      groups.foldlM (collectGroup useSecondaryIndex false getGroupIndex) store = .ok store := by
    induction groups with
    | nil => rfl
    | cons group groups ih =>
      rcases forall_mem_cons.mp bounds with ⟨bound, later⟩
      rw [foldlM_cons, visit bound]
      exact ih later
  exact visits _ (fun group member => mem_range.mp member)

/-- A collection keeps every answer if the groups that `RunCoLocationGC` chooses are
without records, and if for `runAllColocationGC` no record is flushed yet. -/
theorem coLocationGC_keeps_answers (useSecondaryIndex : Bool) (store : GroupedStore)
    (choices : List Nat) : ((∀ group ∈ choices, store.Vacant group) ->
      ∃ after, store.runCoLocationGC useSecondaryIndex choices = .ok after ∧
        forall key value, after.get key value = store.get key value) ∧
    ((∀ log ∈ store.groups, log.vlogSize = 0) ->
      ∃ after, store.runAllColocationGC useSecondaryIndex = .ok after ∧
        forall key value, after.get key value = store.get key value) := by
  constructor
  · intro vacant
    rcases runCoLocationGC_vacant useSecondaryIndex vacant with ⟨after, run, agrees⟩
    exact ⟨after, run, agrees.get⟩
  · intro unflushed
    exact ⟨store, runAllColocationGC_unflushed useSecondaryIndex unflushed, fun _ _ => rfl⟩

/-- The constructor of `GroupValueLog`, on files with the given bytes. -/
def openGroups (logName : List Char) (valueSize : Nat) (files : List Bytes) : List VLog :=
  files.mapIdx (fun group file =>
    VLog.new ⟨logName ++ "_group_".toList ++ Nat.toDigits 10 group, valueSize⟩ (fun _ => 0) file)

/-- A store with ten groups that were just created, of which `RunCoLocationGC` chooses one. -/
def tenGroups : GroupedStore :=
  ⟨[], openGroups "grouped_vlog.txt".toList 16 (replicate 10 []), 0⟩

/-- The store after its groups were closed and opened again. -/
def reopened (store : GroupedStore) : GroupedStore :=
  { store with groups := openGroups "grouped_vlog.txt".toList 16 (store.groups.map VLog.close) }

/-- A value in the buffer of one group survives the collection of another one, and
the collection of all groups. -/
theorem coLocationGC_keeps_other_group :
    ∃ store after later, tenGroups.put [107] [1, 2, 3] = .ok store ∧
      store.runCoLocationGC false [1] = .ok after ∧ store.runAllColocationGC false = .ok later ∧
      (forall key value, after.get key value = store.get key value) ∧
      forall key value, later.get key value = store.get key value := by
  rcases coLocationGC_keeps_answers false
    ((tenGroups.put [107] [1, 2, 3]).toOption.getD tenGroups) [1] with ⟨one, all⟩
  rcases one (by decide +kernel) with ⟨after, run, same⟩
  rcases all (by decide +kernel) with ⟨later, runAll, sameAll⟩
  exact ⟨_, after, later, rfl, run, runAll, same, sameAll⟩

/-- `RunCoLocationGC` drops a value that is still in the buffer, also when the `sPut` of
another key has called it.  `runAllColocationGC` reads all records through one scratch space
and writes the value of one key under another key, whose own value is then gone. -/
theorem coLocationGC_changes_answers :
    (do (<- tenGroups.put [107] [1, 2, 3]).get [107] []) = .ok (.ok, [1, 2, 3]) ∧
    (do (<- (<- tenGroups.put [107] [1, 2, 3]).runCoLocationGC false [0]).get [107] []) =
      .error "buffer" ∧
    (do (<- sPut false [0] { <- tenGroups.put [107] [1, 2, 3] with writeCount := 99999 }
      [1] [2] [3]).get [107] []) = .error "buffer" ∧
    (do (<- (<- tenGroups.put [8] [5]).put [107] [8, 2, 3]).reopened.get [8] []) = .ok (.ok, [5]) ∧
    (do (<- (<- (<- tenGroups.put [8] [5]).put [107] [8, 2, 3]).reopened.runAllColocationGC
      false).get [8] []) = .ok (.ok, [8, 2, 3]) :=
  ⟨rfl, rfl, rfl, rfl, rfl⟩

end GroupedStore

end Mod
end Doux
