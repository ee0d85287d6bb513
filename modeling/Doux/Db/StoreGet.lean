import Doux.Db.Get
import Doux.Db.Reopen

namespace Doux
namespace Db

open Foundation Util Table List

/-!
# Reading a store

`Doux.Db.Reopen` follows what is written to a database through flushes and recoveries.
Here a store is read: `DBImpl::Get` searches the memtable, the immutable memtable and
then the tables, which are all at level zero, the newest first.

When the memtables were filled in the order of the writes and each table was made of
one of them, the answer is that of the newest entry of the user key, wherever it is.
-/

theorem filterMap_decode_bytes (entries : List Entry) : (entries.map Entry.bytes).filterMap
      (fun row => (InternalKey.decode row.1).map (fun key => Entry.mk key row.2)) = entries := by
  rw [filterMap_map]
  have each : (fun row : KeyValue => (InternalKey.decode row.1).map
      (fun key => Entry.mk key row.2)) ∘ Entry.bytes = some := by
    funext entry
    simp [Entry.bytes, InternalKey.decode_encode]
  rw [each, filterMap_some]

theorem Store.write_eq_ok {db next : Store} {batch : WriteBatch}
    (written : db.write batch = .ok next) : next = { db with
      log := ⟨db.log.number, db.log.batches ++ [batch.setSequence (db.lastSequence + 1)]⟩
      mem := db.mem ++ (batch.setSequence (db.lastSequence + 1)).memTableEntries
      lastSequence := db.lastSequence + batch.records.length } := by
  rcases assertThat_bind_eq_ok.mp written with ⟨_, rest⟩
  rcases assertThat_bind_eq_ok.mp rest with ⟨_, isNext⟩
  cases isNext
  rfl

section
variable [LinearOrder UserKey]

/-- The rows of a key table whose keys have tags. -/
def FlushedFile.entries (file : FlushedFile) : List Entry :=
  file.keys.filterMap (fun row => (InternalKey.decode row.1).map (fun key => ⟨key, row.2⟩))

/-- The loop of `Version::Get` over the tables of level zero. -/
def getTables (config : Config) (key : InternalKey) (value : Bytes) :
    List FlushedFile -> Except String GetResult
  | [] => .ok ⟨.ok, value⟩
  | file :: files => do
    match <- tableGet config file.entries key with
    | .notFound => getTables config key value files
    | .found result => return ⟨.ok, result⟩
    | .deleted => return ⟨.notFound, value⟩
    | .corrupt => return ⟨.corruption, value⟩

/-- `DBImpl::Get`, up to what some modes do with the value that was found. -/
def Store.get (config : Config) (db : Store) (userKey : UserKey) (value : Bytes) :
    Except String GetResult := do
  let key <- lookupKey userKey db.lastSequence
  match (memTableGet db.mem key value).or (db.imm.bind (fun imm => memTableGet imm key value)) with
  | some result => return result
  | none => getTables config key value (db.tables.insertionSort (fun a b => b.number ≤ a.number))

/-- All entries, in the tables and in the memtables. -/
def Store.entries (db : Store) : List Entry :=
  db.tables.flatMap FlushedFile.entries ++ (db.imm.getD [] ++ db.mem)

/-- What `Get` returns when the given entry is the newest one. -/
def lookupResult (value : Bytes) (found : Option Entry) : GetResult :=
  found.elim ⟨.ok, value⟩ (Entry.result value)

/-- The table was made of the memtable. -/
def FlushedFile.IsTableOf (file : FlushedFile) (mem : List Entry) : Prop :=
  file.entries = mem.insertionSort (fun a b => a.key ≤ b.key)

/-- The entries of a store in the order of the writes.  Each table was made of one of the
given lists. -/
def Store.written (db : Store) (parts : List (List Entry)) : List Entry :=
  parts.flatten ++ (db.imm.getD [] ++ db.mem)

/-- The tables were made of the given lists, and these and the memtables have the entries
in the order of the writes. -/
structure Store.Reads (db : Store) (parts : List (List Entry)) : Prop where
  tables : List.Forall₂ FlushedFile.IsTableOf db.tables parts
  numbers : db.tables.Pairwise (fun first second => first.number < second.number)
  increasing : (db.written parts).Pairwise (fun a b => a.key.sequence < b.key.sequence)
  known : ∀ entry ∈ db.written parts, entry.key.type.isSome
  bounded : db.lastSequence ≤ kMaxSequenceNumber

/-- Without value tables a flush succeeds exactly on a memtable with entries, and the
table has these in the order of their keys. -/
theorem writeLevel0Table_eq_ok {settings : ReopenSettings}
    (plain : ¬ (settings.mod = 9 ∨ SortsValues settings.mod)) {number : Nat} {mem : List Entry}
    {file : FlushedFile} (written : settings.writeLevel0Table number mem = .ok file) :
    mem ≠ [] ∧ file.number = number ∧ file.IsTableOf mem := by
  unfold ReopenSettings.writeLevel0Table at written
  rw [if_neg plain] at written
  rcases bind_eq_ok.mp written with ⟨_, built, rest⟩
  rcases assertThat_bind_eq_ok.mp rest with ⟨nonempty, isFile⟩
  cases isFile
  refine ⟨?_, rfl, ?_⟩
  · rintro rfl
    exact nonempty rfl
  · rw [(buildTable_eq_ok built).entries]
    exact filterMap_decode_bytes _

variable {files : List FlushedFile}

/-- The tables have the entries of the memtables of which they were made. -/
theorem mem_tables {parts : List (List Entry)}
    (tables : List.Forall₂ FlushedFile.IsTableOf files parts) {entry : Entry} :
    entry ∈ files.flatMap FlushedFile.entries <-> entry ∈ parts.flatten := by
  induction tables with
  | nil => rfl
  | cons isTable _ ih =>
    rw [flatMap_cons, flatten_cons, mem_append, mem_append, ih, isTable, mem_insertionSort]

section Search
variable (config : Config) {key : InternalKey} {userKey : UserKey} {snapshot : Nat}
  (isKey : IsLookupKey key userKey snapshot)
include isKey

/-- A table answers with the newest visible entry of the memtable of which it was made. -/
theorem FlushedFile.IsTableOf.tableGet {file : FlushedFile} {mem : List Entry}
    (isTable : file.IsTableOf mem)
    (increasing : InWriteOrder mem)
    (known : ∀ entry ∈ mem, entry.key.type.isSome) : tableGet config file.entries key =
      .ok ((entryVersions.findNewest userKey snapshot mem).elim .notFound Entry.saved) := by
  have mem_sorted (entry : Entry) :
      entry ∈ mem.insertionSort (fun a b => a.key ≤ b.key) <-> entry ∈ mem :=
    mem_insertionSort _
  have distinct := distinct_of_increasing increasing
  have answer := tableGet_eq isKey config (sorted_memTable increasing)
    (fun entry member => known entry ((mem_sorted entry).mp member))
    (distinct.of_subset (fun entry member => (mem_sorted entry).mp member))
  rw [isTable, answer, Versioned.findNewest_congr distinct mem_sorted]

/-- The loop over the tables stops at the first table that answers. -/
theorem getTables_eq (value : Bytes) {parts : List (List Entry)}
    (tables : List.Forall₂ FlushedFile.IsTableOf files parts)
    (increasing : ∀ part ∈ parts, InWriteOrder part)
    (known : ∀ part ∈ parts, ∀ entry ∈ part, entry.key.type.isSome) :
    getTables config key value files = .ok (lookupResult value
      (parts.findSome? (entryVersions.findNewest userKey snapshot))) := by
  induction tables with
  | nil => rfl
  | cons isTable _ ih =>
    rcases forall_mem_cons.mp increasing with ⟨first, others⟩
    rcases forall_mem_cons.mp known with ⟨firstKnown, othersKnown⟩
    rw [getTables, isTable.tableGet config isKey first firstKnown, findSome?_cons]
    cases entryVersions.findNewest userKey snapshot _ with
    | none => exact ih others othersKnown
    | some entry =>
      simp only [lookupResult, Option.elim_some, Entry.saved, Entry.result]
      split <;> rfl

end Search

omit [LinearOrder UserKey] in
theorem insertionSort_newestFirst
    (numbers : files.Pairwise (fun first second => first.number < second.number)) :
    files.insertionSort (fun a b => b.number ≤ a.number) = files.reverse := by
  induction files with
  | nil => rfl
  | cons file files ih =>
    rcases pairwise_cons.mp numbers with ⟨first, later⟩
    have larger : ∀ other ∈ files.reverse, decide (¬ other.number ≤ file.number) = true := by
      intro other member
      simpa using first other (mem_reverse.mp member)
    rw [insertionSort_cons, ih later, reverse_cons, orderedInsert_eq_take_drop,
      takeWhile_eq_self_iff.mpr larger, dropWhile_eq_nil_iff.mpr larger]

namespace Store.Reads
variable {db : Store} {parts : List (List Entry)} (reads : db.Reads parts)
include reads

omit [LinearOrder UserKey] reads in
/-- The places in which entries are, the oldest first. -/
theorem written_eq : db.written parts = (parts ++ [db.imm.getD [], db.mem]).flatten := by
  simp [Store.written]

theorem places : (∀ place ∈ parts ++ [db.imm.getD [], db.mem], InWriteOrder place) ∧
    (parts ++ [db.imm.getD [], db.mem]).Pairwise entryVersions.Older := by
  have increasing := reads.increasing
  rw [written_eq, pairwise_flatten] at increasing
  exact ⟨increasing.1, increasing.2.imp
    (fun {old new} older a inOld b inNew _ => older a inOld b inNew)⟩

theorem known_place : ∀ place ∈ parts ++ [db.imm.getD [], db.mem],
    ∀ entry ∈ place, entry.key.type.isSome := by
  intro place isPlace entry member
  apply reads.known entry
  rw [written_eq]
  exact mem_flatten.mpr ⟨place, isPlace, member⟩

theorem findSome_places (userKey : UserKey) (snapshot : Nat) :
    (parts ++ [db.imm.getD [], db.mem]).reverse.findSome?
        (entryVersions.findNewest userKey snapshot) =
      entryVersions.findNewest userKey snapshot (db.written parts) := by
  apply Versioned.findSome_findNewest (pairwise_reverse.mpr reads.places.2)
    (distinct_of_increasing reads.increasing)
  intro entry
  rw [written_eq]
  simp only [mem_flatten, mem_reverse]

theorem get_eq (config : Config) (userKey : UserKey) (value : Bytes) :
    db.get config userKey value = .ok (lookupResult value
      (entryVersions.findNewest userKey db.lastSequence (db.written parts))) := by
  rcases lookupKey_eq_ok userKey reads.bounded with ⟨key, isOk, isKey⟩
  have inMem : db.mem ∈ parts ++ [db.imm.getD [], db.mem] := by simp
  have memGet := memTableGet_eq isKey (reads.places.1 _ inMem) (reads.known_place _ inMem) value
  have immGet : db.imm.bind (fun imm => memTableGet imm key value) =
      (entryVersions.findNewest userKey db.lastSequence (db.imm.getD [])).map
        (Entry.result value) := by
    cases waiting : db.imm with
    | none => rfl
    | some imm =>
      have isImm : imm ∈ parts ++ [db.imm.getD [], db.mem] := by simp [waiting]
      exact memTableGet_eq isKey (reads.places.1 _ isImm) (reads.known_place _ isImm) value
  have tables := getTables_eq config isKey value (rel_reverse reads.tables)
    (fun part member => reads.places.1 part (mem_append_left _ (mem_reverse.mp member)))
    (fun part member => reads.known_place part (mem_append_left _ (mem_reverse.mp member)))
  unfold Store.get
  rw [isOk, <- reads.findSome_places userKey db.lastSequence, insertionSort_newestFirst
    reads.numbers]
  change (match (memTableGet db.mem key value).or _ with
    | some result => pure result
    | none => getTables config key value db.tables.reverse) = _
  rw [memGet, immGet, tables, reverse_append]
  simp only [reverse_cons, reverse_nil, nil_append, cons_append, findSome?_cons]
  cases entryVersions.findNewest userKey db.lastSequence db.mem with
  | some entry => rfl
  | none =>
    cases entryVersions.findNewest userKey db.lastSequence (db.imm.getD []) with
    | some entry => rfl
    | none => rfl

end Store.Reads

/-- What an entry says about its user key: its value, or that it is deleted. -/
def Entry.outcome (entry : Entry) : Option Bytes :=
  if entry.key.type = some .value then some entry.value else none

omit [LinearOrder UserKey] in
theorem Entry.result_eq (entry : Entry) (value : Bytes) :
    entry.result value = entry.outcome.elim ⟨.notFound, value⟩ (fun found => ⟨.ok, found⟩) := by
  unfold Entry.result Entry.outcome
  split <;> rfl

omit [LinearOrder UserKey] in
/-- Callers cannot tell two lookups apart exactly when the entries have the same outcome.
A lookup without an entry leaves the caller's string as it is. -/
theorem lookupResult_eq_iff (found other : Option Entry) :
    (∀ value, lookupResult value found = lookupResult value other) <->
      found.map Entry.outcome = other.map Entry.outcome := by
  have apart (entry : Entry) : ¬ ∀ value, entry.result value = ⟨.ok, value⟩ := by
    intro same
    have here := same (entry.outcome.getD [] ++ [0])
    rw [Entry.result_eq] at here
    cases isOutcome : entry.outcome with
    | none => simp [isOutcome] at here
    | some stored => simp [isOutcome] at here
  cases found with
  | none =>
    cases other with
    | none => exact iff_of_true (fun _ => rfl) rfl
    | some entry =>
      exact iff_of_false (fun same => apart entry (fun value => (same value).symm)) nofun
  | some entry =>
    cases other with
    | none => exact iff_of_false (fun same => apart entry same) nofun
    | some later =>
      simp only [lookupResult, Option.elim_some, Option.map_some, Option.some_inj, Entry.result_eq]
      constructor
      · intro same
        have here := same []
        cases first : entry.outcome with
        | none => cases second : later.outcome <;> simp_all
        | some stored => cases second : later.outcome <;> simp_all
      · intro same _
        rw [same]

/-- `MakeRoomForWrite` without `force`.  It waits while there is an immutable memtable. -/
def Store.makeRoomForWrite (settings : ReopenSettings) (db : Store) : Store :=
  if settings.isFull db.mem then db.switchMemTable else db

theorem Store.compactMemTable_eq_ok {settings : ReopenSettings} {db next : Store}
    {entries : List Entry} (waiting : db.imm = some entries) :
    db.compactMemTable settings = .ok next <->
      ∃ file, settings.writeLevel0Table db.nextFileNumber entries = .ok file ∧ next = { db with
        tables := db.tables ++ [file]
        logNumber := db.log.number
        savedFileNumber := db.nextFileNumber + 1
        savedSequence := db.lastSequence
        nextFileNumber := db.nextFileNumber + 1
        imm := none } := by
  rw [Store.compactMemTable, waiting]
  exact bind_eq_ok.trans (exists_congr fun _ => and_congr_right fun _ =>
    (Except.ok.injEq ..).to_iff.trans eq_comm)

omit [LinearOrder UserKey]

/-- A part of the written operations, in their order. -/
theorem sublist_memTableEntries {updates : List Update} {list : List Entry}
    (sub : list.Sublist (memTableEntries 1 updates))
    (bounded : updates.length < kMaxSequenceNumber) :
    InWriteOrder list ∧
      ∀ entry ∈ list, entry.key.type.isSome ∧ entry.key.sequence ≤ updates.length := by
  have room : 1 + updates.length ≤ kMaxSequenceNumber + 1 := by omega
  refine ⟨(memTableEntries_increasing room).sublist sub, ?_⟩
  intro _ member
  rcases memTableEntries_spec room (sub.subset member) with ⟨_, _, _, _, _, type, _⟩
  rw [type]
  exact ⟨rfl, by omega⟩

theorem Store.opened_parts (db : Store) (result : Recovery × Option (List Entry)) :
    (db.opened result).tables =
        (if result.1.saveManifest then db.tables ++ result.1.added else db.tables) ∧
      (db.opened result).imm = none ∧ (db.opened result).mem = result.2.getD [] ∧
      (db.opened result).lastSequence = max db.savedSequence result.1.maxSequence := by
  rcases result with ⟨recovery, reused⟩
  unfold Store.opened Store.saved
  cases reused <;> cases recovery.saveManifest <;> exact ⟨rfl, rfl, rfl, rfl⟩

end

end Db
end Doux
