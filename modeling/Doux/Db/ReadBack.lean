import Doux.Db.Get

namespace Doux
namespace Db

open Foundation Util Table List

/-!
# Reading back what was written

The newest operation on a user key up to a snapshot says what a reader at the snapshot
should be told.  The entry of this operation may be in a memtable or in a file, and
older entries of the user key may be gone.  A put is gone only when a newer operation is
visible to all snapshots, so a put that some reader should see is still there, and
`Get` finds it.

Deletions are different.  Their entries may be dropped while a reader should still see
them, and then there is nothing to find, which `Get` does not report.
-/

section
variable [LinearOrder UserKey]

/-- The newest operation on a user key up to a sequence number.  The operations of a run
have the sequence numbers from one on. -/
def newestUpdate (updates : List Update) (userKey : UserKey) (sequence : Nat) : Option Update :=
  (updates.take sequence).reverse.find? (fun update => update.key = userKey)

variable {updates : List Update} {userKey : UserKey}

theorem exists_split_of_newestUpdate {sequence : Nat} {update : Update}
    (newest : newestUpdate updates userKey sequence = some update) :
    ∃ before later, updates.take sequence = before ++ update :: later ∧
      update.key = userKey ∧ ∀ other ∈ later, other.key ≠ userKey := by
  rcases find?_eq_some_iff_append.mp newest with ⟨isKey, later, before, split, others⟩
  refine ⟨before.reverse, later.reverse, ?_, by simpa using isKey, ?_⟩
  · rw [<- reverse_reverse (updates.take sequence), split]
    simp
  · intro other member
    simpa using others other (mem_reverse.mp member)

theorem isNewest_of_newestUpdate {sequence : Nat} {update : Update}
    (bounded : 1 + updates.length ≤ kMaxSequenceNumber + 1)
    (newest : newestUpdate updates userKey sequence = some update) :
    ∃ entry, entryVersions.IsNewest (memTableEntries 1 updates) userKey sequence entry ∧
      entry.key.type = some update.type ∧ entry.value = update.value := by
  rcases exists_split_of_newestUpdate newest with ⟨before, later, split, isKey, others⟩
  have whole : updates = (before ++ update :: later) ++ updates.drop sequence := by
    rw [<- split, take_append_drop]
  have counted := congrArg List.length split
  rw [length_take, length_append, length_cons] at counted
  have listed : memTableEntries 1 updates = memTableEntries 1 before ++
      (memTableEntry (1 + before.length, update) ::
        memTableEntries (1 + before.length + 1) later) ++
      memTableEntries (1 + (before ++ update :: later).length) (updates.drop sequence) := by
    conv_lhs => rw [whole, memTableEntries_append, memTableEntries_append]
    rfl
  rcases memTableEntry_spec (1 + before.length, update)
    (show 1 + before.length ≤ kMaxSequenceNumber by omega) with ⟨isSequence, isType⟩
  refine ⟨memTableEntry (1 + before.length, update), ⟨?_, isKey, ?_, ?_⟩, isType, rfl⟩
  · rw [listed]
    exact mem_append_left _ (mem_append_right _ mem_cons_self)
  · change (memTableEntry (1 + before.length, update)).key.sequence ≤ sequence
    omega
  · intro other member otherKey visible
    change other.key.sequence ≤ sequence at visible
    change other.key.sequence ≤ (memTableEntry (1 + before.length, update)).key.sequence
    rw [isSequence]
    rw [listed] at member
    rcases mem_append.mp member with isTaken | isDropped
    · rcases mem_append.mp isTaken with isBefore | isHere
      · have small := (memTableEntries_spec (by omega) isBefore).2.1
        omega
      · rcases mem_cons.mp isHere with rfl | isLater
        · exact le_of_eq isSequence
        · rcases memTableEntries_spec (by omega) isLater with ⟨_, _, found, isFound, key, _⟩
          exact absurd (key.symm.trans otherKey) (others found (mem_of_getElem? isFound))
    · rcases memTableEntries_spec
        (by rw [length_append, length_cons, length_drop]; omega) isDropped with
        ⟨large, small, _⟩
      rw [length_append, length_cons] at large small
      rw [length_drop] at small
      omega

/-- Every put is in a memtable or in a file, unless a newer operation on its user key is
visible to all readers. -/
def Kept (updates : List Update) (db : Database) : Prop :=
  ∀ original ∈ memTableEntries 1 updates, original.key.type = some .value -> original ∈ db.memory ∨
      (∃ stored ∈ versionEntries db.current.files db.tables, stored.key = original.key) ∨
      ∃ newer ∈ memTableEntries 1 updates, newer.key.userKey = original.key.userKey ∧
        original.key.sequence < newer.key.sequence ∧ newer.key.sequence ≤ db.smallestSnapshot

variable {config : Config} {db : Database}

theorem Flushes.mem_versionEntries {next : Database} {entries : List Entry} {built : Level0Tables}
    {file : KeyFile} (flushes : Flushes config db next entries built file)
    (before : Layered db.current.files db.tables) (after : Layered next.current.files next.tables)
    (numbers : ∀ level, ∀ file ∈ db.current.files level, file.number < db.nextFileNumber)
    {entry : Entry} : entry ∈ versionEntries next.current.files next.tables <->
      entry ∈ versionEntries db.current.files db.tables ∨ entry ∈ built.entries := by
  rw [Db.mem_versionEntries after.outside, Db.mem_versionEntries before.outside, flushes.tables,
    <- flushes.number]
  rw [<- flushes.number] at numbers
  simp only [inLevel_flushed flushes.zero flushes.others numbers, exists_or, exists_eq_left]

section
variable {next : Database} {compaction : Compaction} {outputs : List KeyFile}
  {smallestSnapshot : Nat} (compacts : Compacts db next compaction outputs smallestSnapshot)
  (before : Layered db.current.files db.tables)
include compacts before

theorem Compacts.keeps {entry : Entry}
    (stored : entry ∈ versionEntries db.current.files db.tables) :
    entry ∈ versionEntries next.current.files next.tables ∨
      entry ∈ compaction.inputEntries db.tables ∧
        (Shadowed smallestSnapshot (compaction.inputEntries db.tables) entry ∨
          Obsolete compaction smallestSnapshot entry) := by
  have replacement := compacts.replacement
  rw [mem_versionEntries (replacement.layered before).outside]
  rcases (mem_versionEntries before.outside).mp stored with ⟨level, file, member, inTable⟩
  by_cases isInput : compaction.IsInput level file
  · have inInputs := Compaction.mem_inputEntries.mpr ⟨level, file, isInput, inTable⟩
    by_cases shadowed : Shadowed smallestSnapshot (compaction.inputEntries db.tables) entry
    · exact Or.inr ⟨inInputs, Or.inl shadowed⟩
    by_cases obsolete : Obsolete compaction smallestSnapshot entry
    · exact Or.inr ⟨inInputs, Or.inr obsolete⟩
    · rcases compacts.kept entry inInputs shadowed obsolete with ⟨output, isOutput, inOutput⟩
      exact Or.inl ⟨_, output, (replacement.mem _ output).mpr (Or.inr ⟨rfl, isOutput⟩), inOutput⟩
  · refine Or.inl ⟨level, file, (replacement.mem level file).mpr (Or.inl ⟨member, isInput⟩), ?_⟩
    rw [replacement.results.kept level file member isInput]
    exact inTable

theorem Compacts.subset : versionEntries next.current.files next.tables ⊆
      versionEntries db.current.files db.tables := by
  intro _ stored
  have after := compacts.replacement.layered before
  rcases (mem_versionEntries after.outside).mp stored with ⟨_, inLevel⟩
  exact (mem_versionEntries before.outside).mpr (compacts.replacement.inLevel inLevel)

end

namespace Inv
variable {config : Config} {updates : List Update} {db : Database} (inv : Inv config updates db)
include inv

theorem exists_original {stored : Entry}
    (isStored : stored ∈ versionEntries db.current.files db.tables) :
    ∃ original ∈ memTableEntries 1 updates, original.key = stored.key := by
  rcases inv.split with ⟨_, all, source⟩
  rcases (mem_versionEntries inv.layered.outside).mp isStored with ⟨level, inLevel⟩
  rcases source level stored inLevel with ⟨original, isFlushed, same⟩
  exact ⟨original, by rw [all]; exact mem_append_left _ isFlushed, same⟩

theorem memory_subset : db.memory ⊆ memTableEntries 1 updates := by
  rcases inv.split with ⟨_, all, _⟩
  intro _ member
  rw [all]
  exact mem_append_right _ member

/-- In all states of a run the memtables and the files are layered. -/
theorem readable : Readable db where
  layered := inv.layered
  increasing := by
    rcases inv.split with ⟨_, all, _⟩
    have ordered := memTableEntries_increasing inv.length_lt
    rw [all] at ordered
    exact (pairwise_append.mp ordered).2.1
  known := by
    intro entry member
    rcases memTableEntries_spec inv.length_lt (inv.memory_subset member) with
      ⟨_, _, _, _, _, type, _⟩
    rw [type]
    rfl
  newer := by
    rcases inv.split with ⟨_, all, source⟩
    have ordered := memTableEntries_increasing inv.length_lt
    rw [all] at ordered
    intro stored isStored entry member
    rcases (mem_versionEntries inv.layered.outside).mp isStored with ⟨level, inLevel⟩
    rcases source level stored inLevel with ⟨original, isFlushed, same⟩
    rw [<- same]
    exact (pairwise_append.mp ordered).2.2 original isFlushed entry member

theorem smallestSnapshot_le_held {snapshot : Nat} (held : snapshot ∈ db.snapshots) :
    db.smallestSnapshot ≤ snapshot := by
  have oldest := inv.snapshots
  unfold Database.smallestSnapshot
  cases isHeld : db.snapshots with
  | nil =>
    rw [isHeld] at held
    cases held
  | cons first rest =>
    rw [isHeld] at held oldest
    rcases mem_cons.mp held with rfl | later
    · exact le_refl _
    · exact (pairwise_cons.mp oldest).1 snapshot later

theorem newer_of_shadowed {next : Database} {compaction : Compaction} {outputs : List KeyFile}
    {smallestSnapshot : Nat} (compacts : Compacts db next compaction outputs smallestSnapshot)
    {stored : Entry} (isInput : stored ∈ compaction.inputEntries db.tables)
    (shadowed : Shadowed smallestSnapshot (compaction.inputEntries db.tables) stored) :
    ∃ newer ∈ memTableEntries 1 updates, newer.key.userKey = stored.key.userKey ∧
      stored.key.sequence < newer.key.sequence ∧ newer.key.sequence ≤ db.smallestSnapshot := by
  have inFiles {entry : Entry} (member : entry ∈ compaction.inputEntries db.tables) :
      entry ∈ versionEntries db.current.files db.tables := by
    rcases Compaction.mem_inputEntries.mp member with ⟨level, file, isFile, inFile⟩
    exact (mem_versionEntries inv.layered.outside).mpr
      ⟨level, file, compacts.replacement.fits.inputs level file isFile, inFile⟩
  have distinct : entryVersions.Distinct (compaction.inputEntries db.tables) :=
    inv.layered.distinct.of_subset (fun _ member => inFiles member)
  rcases (shadowed_iff_hidden distinct isInput).mp shadowed with
    ⟨newer, isNewer, sameKey, larger, visible⟩
  rcases inv.exists_original (inFiles isNewer) with ⟨original, isOriginal, same⟩
  refine ⟨original, isOriginal, ?_, ?_, ?_⟩
  · rw [same]
    exact sameKey
  · rw [same]
    exact larger
  · rw [same]
    exact le_trans visible compacts.snapshot

theorem kept_step {next : Database} {written : List Update} (kept : Kept updates db)
    (invNext : Inv config (updates ++ written) next) (changes : Changes config db next written)
    (grows : db.smallestSnapshot ≤ next.smallestSnapshot) : Kept (updates ++ written) next := by
  have hidden {original : Entry} (superseded : ∃ newer ∈ memTableEntries 1 updates,
      newer.key.userKey = original.key.userKey ∧
        original.key.sequence < newer.key.sequence ∧ newer.key.sequence ≤ db.smallestSnapshot) :
      ∃ newer ∈ memTableEntries 1 (updates ++ written),
        newer.key.userKey = original.key.userKey ∧ original.key.sequence < newer.key.sequence ∧
          newer.key.sequence ≤ next.smallestSnapshot := by
    rcases superseded with ⟨newer, isNewer, sameKey, larger, visible⟩
    rw [memTableEntries_append]
    exact ⟨newer, mem_append_left _ isNewer, sameKey, larger, le_trans visible grows⟩
  intro original isOriginal isPut
  cases changes with
  | unchanged files tables memory =>
    rw [memTableEntries_append] at isOriginal
    rw [memory, files, tables]
    rcases mem_append.mp isOriginal with isOld | isNew
    · rcases kept original isOld isPut with inMemory | isStored | superseded
      · exact Or.inl (mem_append_left _ inMemory)
      · exact Or.inr (Or.inl isStored)
      · exact Or.inr (Or.inr (hidden superseded))
    · rw [add_comm, <- inv.counted] at isNew
      exact Or.inl (mem_append_right _ isNew)
  | flush flushes memory =>
    rw [append_nil] at isOriginal invNext
    have mem_next {entry : Entry} : entry ∈ versionEntries next.current.files next.tables <-> _ :=
      flushes.mem_versionEntries inv.layered invNext.layered inv.numbers
    rw [memory]
    rcases kept original isOriginal isPut with inMemory | ⟨stored, isStored, same⟩ | superseded
    · rcases mem_append.mp inMemory with inImm | inMem
      · rw [flushes.waiting, Option.getD_some] at inImm
        have isKey : original.key ∈ (_ : List InternalKey) :=
          mem_map_of_mem ((mem_insertionSort (fun a b => a.key ≤ b.key)).mpr inImm)
        rw [<- flushes.keys] at isKey
        rcases mem_map.mp isKey with ⟨stored, isBuilt, same⟩
        exact Or.inr (Or.inl ⟨stored, mem_next.mpr (Or.inr isBuilt), same⟩)
      · exact Or.inl inMem
    · exact Or.inr (Or.inl ⟨stored, mem_next.mpr (Or.inl isStored), same⟩)
    · exact Or.inr (Or.inr (hidden superseded))
  | compact compacts memory =>
    rw [append_nil] at isOriginal
    rw [memory]
    rcases kept original isOriginal isPut with inMemory | ⟨stored, isStored, same⟩ | superseded
    · exact Or.inl inMemory
    · rcases compacts.keeps inv.layered isStored with stays | ⟨isInput, shadowed | obsolete⟩
      · exact Or.inr (Or.inl ⟨stored, stays, same⟩)
      · have superseded := inv.newer_of_shadowed compacts isInput shadowed
        rw [same] at superseded
        exact Or.inr (Or.inr (hidden superseded))
      · have isDeletion := obsolete.1
        rw [same, isPut] at isDeletion
        cases isDeletion
    · exact Or.inr (Or.inr (hidden superseded))

end Inv

/-- In all states of a run the puts that some reader should see are there. -/
theorem kept_of_run (plain : config.mod ≠ 13) {actions : List Action}
    (run : Database.run config actions = .ok db) : Kept (history actions) db := by
  have start : Inv config (history []) .new ∧ Kept (history []) .new :=
    ⟨inv_new config, fun _ member => by cases member⟩
  refine (foldlM_invariant (fun seen db => Inv config (history seen) db ∧ Kept (history seen) db)
    ?_ start run).2
  rintro _ _ _ _ ⟨inv, kept⟩ stepped
  rcases inv.step plain stepped with ⟨invNext, changes, grows⟩
  rw [history_snoc]
  exact ⟨invNext, inv.kept_step kept invNext changes grows⟩

theorem stored_of_run (unsorted : ¬ SortsValues config.mod) {actions : List Action}
    (run : Database.run config actions = .ok db) :
    versionEntries db.current.files db.tables ⊆ memTableEntries 1 (history actions) := by
  have plain : config.mod ≠ 13 := fun isPlain => unsorted (Or.inr isPlain)
  have start : Inv config (history []) .new ∧
      versionEntries Database.new.current.files Database.new.tables ⊆
        memTableEntries 1 (history []) := ⟨inv_new config, fun _ member => by cases member⟩
  refine (foldlM_invariant (fun seen db => Inv config (history seen) db ∧ versionEntries
    db.current.files db.tables ⊆ memTableEntries 1 (history seen)) ?_ start run).2
  rintro _ action _ _ ⟨inv, stored⟩ stepped
  rcases inv.step plain stepped with ⟨invNext, changes, _⟩
  rw [history_snoc]
  refine ⟨invNext, ?_⟩
  generalize action.updates = written at changes invNext
  cases changes with
  | unchanged files tables memory =>
    rw [files, tables, memTableEntries_append]
    exact fun entry member => mem_append_left _ (stored member)
  | flush flushes memory =>
    rw [append_nil] at invNext ⊢
    intro entry member
    rcases (flushes.mem_versionEntries inv.layered invNext.layered inv.numbers).mp member with
      isOld | isBuilt
    · exact stored isOld
    · have table := flushes.table
      rw [buildTables, if_neg unsorted] at table
      rw [(buildKeyTable_eq_ok table).1, mem_insertionSort] at isBuilt
      refine inv.memory_subset (mem_append_left _ ?_)
      rw [flushes.waiting]
      exact isBuilt
  | compact compacts memory =>
    rw [append_nil]
    exact fun entry member => stored (compacts.subset inv.layered member)

/-! ## What `Get` returns -/

omit [LinearOrder UserKey] in
theorem Kept.newest (kept : Kept updates db) {snapshot : Nat}
    (visible : db.smallestSnapshot ≤ snapshot) {original : Entry}
    (newest : entryVersions.IsNewest (memTableEntries 1 updates) userKey snapshot original)
    (isPut : original.key.type = some .value) : original ∈ db.memory ∨
      ∃ stored ∈ versionEntries db.current.files db.tables, stored.key = original.key := by
  rcases kept original newest.mem isPut with inMemory | isStored | superseded
  · exact Or.inl inMemory
  · exact Or.inr isStored
  · rcases superseded with ⟨newer, isNewer, sameKey, larger, small⟩
    have older := newest.newest newer isNewer (sameKey.trans newest.key_eq) (le_trans small visible)
    exact absurd larger (not_lt.mpr older)

/-- A snapshot that is held, or none for the last sequence number. -/
def Database.Holds (db : Database) (chosen : Option Nat) : Prop :=
  ∀ snapshot ∈ chosen, snapshot ∈ db.snapshots

theorem Inv.snapshot_bounds (inv : Inv config updates db) {chosen : Option Nat}
    (holds : db.Holds chosen) : db.smallestSnapshot ≤ chosen.getD db.lastSequence ∧
      chosen.getD db.lastSequence ≤ kMaxSequenceNumber := by
  cases chosen with
  | none => exact ⟨inv.smallestSnapshot_le, le_of_lt inv.bounded⟩
  | some snapshot =>
    have held := holds snapshot rfl
    exact ⟨inv.smallestSnapshot_le_held held,
      le_trans (inv.held snapshot held) (le_of_lt inv.bounded)⟩

variable (config : Config) (zero : config.mod = 0) (actions : List Action) (db : Database)
  (run : Database.run config actions = .ok db) (userKey : UserKey) (chosen : Option Nat)
  (holds : db.Holds chosen)
include zero run holds

/-- With `MOD` 0, in every state of a run and at every snapshot that is held, `Get` returns
the value of the newest put, whatever the caller's string is. -/
theorem get_newest_put (put : Bytes)
    (newest : newestUpdate (history actions) userKey (chosen.getD db.lastSequence) =
      some (.put userKey put)) (value : Bytes) :
    db.get config userKey chosen value = .ok ⟨.ok, put⟩ := by
  have unsorted : ¬ SortsValues config.mod := by
    rw [zero]
    decide
  have plain : config.mod ≠ 13 := fun isPlain => unsorted (Or.inr isPlain)
  have inv := inv_of_run plain run
  rcases inv.snapshot_bounds holds with ⟨visible, bounded⟩
  rcases isNewest_of_newestUpdate inv.length_lt newest with ⟨original, isNewest, isPut, isValue⟩
  have fromHistory : db.entries ⊆ memTableEntries 1 (history actions) := by
    intro _ member
    rcases mem_append.mp member with inMem | inRest
    · exact inv.memory_subset (mem_append_right _ inMem)
    · rcases mem_append.mp inRest with inImm | isStored
      · exact inv.memory_subset (mem_append_left _ inImm)
      · exact stored_of_run unsorted run isStored
  have distinct := distinct_of_increasing (memTableEntries_increasing inv.length_lt)
  have isEntry : original ∈ db.entries := by
    rcases (kept_of_run plain run).newest visible isNewest isPut with
      inMemory | ⟨stored, isStored, same⟩
    · rcases mem_append.mp inMemory with inImm | inMem
      · exact mem_append_right _ (mem_append_left _ inImm)
      · exact mem_append_left _ inMem
    · have isOriginal : stored = original :=
        distinct stored (stored_of_run unsorted run isStored) original isNewest.mem
          (congrArg InternalKey.userKey same) (congrArg InternalKey.sequence same)
      rw [<- isOriginal]
      exact mem_append_right _ (mem_append_right _ isStored)
  have found := (Versioned.findNewest_eq_some inv.readable.distinct).mpr
    (isNewest.of_subset fromHistory isEntry)
  rw [inv.readable.get_eq_of_plain userKey _ value rfl bounded (fun ten => unsorted (Or.inl ten)),
    found, Option.elim_some, Entry.result, isPut, isValue]
  rfl

/-- With `MOD` 0, in every state of a run and at every snapshot that is held, `Get` returns
`NotFound` exactly if the newest version of the user key that is still stored is a
deletion. -/
theorem get_notFound_iff (value : Bytes) : ∃ result, db.get config userKey chosen value = .ok result ∧ (result.status = .notFound <->
        (entryVersions.findNewest userKey (chosen.getD db.lastSequence) db.entries).bind
          (fun newest => newest.key.type) = some .deletion) := by
  have plain : config.mod ≠ 13 := by
    rw [zero]
    decide
  have ten : config.mod ≠ 10 := by
    rw [zero]
    decide
  have inv := inv_of_run plain run
  have bounded := (inv.snapshot_bounds holds).2
  refine ⟨_, inv.readable.get_eq_of_plain userKey _ value rfl bounded ten, ?_⟩
  cases found : entryVersions.findNewest userKey (chosen.getD db.lastSequence) db.entries with
  | none => simp
  | some entry =>
    have newest := (Versioned.findNewest_eq_some inv.readable.distinct).mp found
    rcases Option.isSome_iff_exists.mp (inv.readable.known_entries newest.mem) with
      ⟨type, isType⟩
    cases type <;> simp [Entry.result, isType]

end

section Bytewise

open Bytewise

/-- The second put of a user key is read back from the files. -/
theorem get_newest_put_flushTwice : ∃ db,
    Database.run (.largeEntries 0 (by decide)) flushTwice = .ok db ∧
    db.get (.largeEntries 0 (by decide)) ⟨List.replicate 8 97⟩ none [] =
      .ok ⟨.ok, List.replicate 8 2⟩ := by
  have returns : (Database.run (.largeEntries 0 (by decide)) flushTwice).toOption.map
      (fun db => db.lastSequence) = some 2 := by
    decide +kernel
  rcases Option.map_eq_some_iff.mp returns with ⟨db, isRun, last⟩
  have run := eq_ok_of_toOption isRun
  refine ⟨db, run, get_newest_put _ rfl flushTwice db run _ none nofun _ ?_ []⟩
  rw [Option.getD_none, last]
  rfl

/-- In a new database nothing is found, and `Get` returns `OK` with the caller's string. -/
theorem get_missing_ok : ∃ db, Database.run (.plain 0 (by decide)) [] = .ok db ∧
    newestUpdate (history []) ⟨[107]⟩ db.lastSequence = none ∧
    db.get (.plain 0 (by decide)) ⟨[107]⟩ none [1, 2] = .ok ⟨.ok, [1, 2]⟩ := by
  refine ⟨.new, rfl, rfl, eq_ok_of_toOption ?_⟩
  decide +kernel

/-- A deletion in the memtable is found. -/
theorem get_notFound_deleted : ∃ db result,
    Database.run (.plain 0 (by decide)) [.write [.delete ⟨[107]⟩]] = .ok db ∧
    db.get (.plain 0 (by decide)) ⟨[107]⟩ none [] = .ok result ∧ result.status = .notFound := by
  have returns : (Database.run (.plain 0 (by decide)) [.write [.delete ⟨[107]⟩]]).toOption.map
      (fun db => (entryVersions.findNewest ⟨[107]⟩ db.lastSequence db.entries).bind
        (fun newest => newest.key.type)) = some (some .deletion) := by
    decide +kernel
  rcases Option.map_eq_some_iff.mp returns with ⟨db, isRun, marked⟩
  have run := eq_ok_of_toOption isRun
  rcases get_notFound_iff _ rfl _ db run ⟨[107]⟩ none nofun [] with ⟨result, got, status⟩
  exact ⟨db, result, run, got, status.mpr marked⟩

end Bytewise

end Db
end Doux
