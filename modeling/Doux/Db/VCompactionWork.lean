import Doux.Db.VCompactionInputs

namespace Doux
namespace Db

open Foundation Util Table List

/-!
# Compactions of value files when file operations fail

`DoVCompactionWork` opens and reads its inputs, writes one output, notes in the block
graph of the current version where each block went, and installs the result.  Every
one of these steps may fail.  This module has the work with the outcome of each file
operation as a parameter, and says which failures it survives.

One variable holds the status of the last operation.  A later success overwrites an
earlier failure, so an input that could not be opened may be forgotten.  A read error and a
table that cannot be opened end the process.  The block graph is changed in place before the
edit is logged, so a failure to log it comes too late; and when the graph cannot be written
completely, nobody notices.
-/

/-- A range of blocks, both ends included. -/
structure BlockRange where
  startBlock : Nat
  endBlock : Nat
deriving DecidableEq

/-- `BlockRange::Size`, in 32-bit arithmetic. -/
def BlockRange.size (range : BlockRange) : Nat :=
  (range.endBlock + 2 ^ 32 - range.startBlock + 1) % 2 ^ 32

/-- Where a block went, with a count of references. -/
structure MappingEntry where
  newFileNumber : Nat
  newBlockRange : BlockRange
  refCount : Nat
deriving DecidableEq

/-- `DependencyGraph`: its map of blocks. -/
abbrev BlockGraph := BlockLocation -> Option MappingEntry

/-- `DependencyGraph::AddMapping`. -/
def BlockGraph.addMapping (graph : BlockGraph) (originFile : Nat) (originRange : BlockRange)
    (newFile : Nat) (newRange : BlockRange) : Except String BlockGraph := do
  assertThat (originRange.size = newRange.size) "origin_range.Size() == new_range.Size()"
  return (List.range originRange.size).foldl (fun graph i =>
    Function.update graph ⟨originFile, originRange.startBlock + i⟩
      (some ⟨newFile, ⟨newRange.startBlock + i, newRange.startBlock + i⟩, 1⟩)) graph

/-- `block_mappings`: for each entry that is written, the block from which it came and
the block to which it goes.  Blocks are counted in 32 bits. -/
def blockMappings (values : List SourcedValue) (written : List VEntry)
    (placed : List (Placed KeyValue)) : List (BlockLocation × Nat) :=
  (written.zip placed).filterMap (fun pair =>
    (sourceOf values pair.1).map (fun location => (location, pair.2.blockNumber % 2 ^ 32)))

/-- The blocks to which the entries of one block go. -/
def outputBlocks (mappings : List (BlockLocation × Nat)) (location : BlockLocation) : List Nat :=
  (mappings.filter (fun mapping => mapping.1 = location)).map Prod.snd

/-- Note each mapping in the graph, from the smallest to the largest output block. -/
def BlockGraph.addMappings (graph : BlockGraph) (mappings : List (BlockLocation × Nat))
    (newFile : Nat) : Except String BlockGraph :=
  (mappings.map Prod.fst).dedup.foldlM (fun graph location =>
    let blocks := outputBlocks mappings location
    graph.addMapping location.fileNumber ⟨location.blockId, location.blockId⟩ newFile
      ⟨blocks.foldl min (blocks.headD 0), blocks.foldl max (blocks.headD 0)⟩) graph

inductive IoStatus where
  | ok
  | failed
deriving DecidableEq

theorem IoStatus.ne_failed {status : IoStatus} : status ≠ .failed <-> status = .ok := by
  cases status <;> simp

/-- What happens when an input is opened.  Tables that were opened before are found in
`vtables_`. -/
inductive InputIo where
  | cached
  | opens
  /-- `NewRandomAccessFile` fails. -/
  | openFails
  /-- `Table::Open` fails and leaves a null pointer. -/
  | tableFails
deriving DecidableEq

/-- What happens to `SaveToFile`.  It notices only that the file cannot be opened; when a write
fails it returns `true` all the same, and a file that is cut off is read as an empty graph. -/
inductive SaveIo where
  | saved
  | notOpened
  | lost
deriving DecidableEq

/-- The graph that can be read back after a save. -/
def SaveIo.leaves (io : SaveIo) (graph : BlockGraph) : BlockGraph :=
  if io = .saved then graph else fun _ => none

/-- What happens to the writes of `LogAndApply`, one after the other. -/
structure LogIo where
  manifest : IoStatus
  save : SaveIo
  sync : IoStatus

/-- All operations succeed. -/
def LogIo.succeeds : LogIo := ⟨.ok, .saved, .ok⟩

/-- The record cannot be written to the manifest. -/
def LogIo.manifestFails : LogIo := ⟨.failed, .saved, .ok⟩

/-- `LogAndApply` returns a status that is OK.  A save that is lost does not change this. -/
def LogIo.Returns (io : LogIo) : Prop :=
  io.manifest = .ok ∧ io.save ≠ .notOpened ∧ io.sync = .ok

/-- The outcomes of all operations of one call.  `wild` is about the variable `it`, which
is not initialised: at the first input it may hold anything, and later it is null. -/
structure VWorkIo where
  input : Nat -> InputIo
  readFails : Nat -> Bool
  wild : Bool
  openOutput : Bool
  finishOutput : Bool
  log : LogIo

/-- A database with the block graph of its current version, the saved graph, and whether
a background error is recorded. -/
structure VersionState where
  db : Database
  graph : BlockGraph
  savedGraph : BlockGraph
  bgError : Bool

/-- What a call returns, with the inputs of which it has read every entry. -/
structure VWorkResult where
  status : IoStatus
  state : VersionState
  read : List Nat

/-- The variables of the loop over the inputs. -/
structure Reading where
  status : IoStatus
  values : List SourcedValue
  read : List Nat
  wild : Bool

namespace Reading

/-- Read all entries of an open input, unless an earlier failure is still in the status
variable. -/
def scan (io : VWorkIo) (vtables : Nat -> List (Block KeyValue)) (reading : Reading)
    (number : Nat) : Except String Reading :=
  if reading.status = .ok then do
    assertThat (io.readFails number = false) "it->status().ok()"
    let values <- readSourced number (vtables number)
    return ⟨.ok, reading.values ++ values, reading.read ++ [number], false⟩
  else .ok { reading with wild := false }

/-- One input.  When it cannot be opened, the uninitialised iterator is deleted. -/
def visit (io : VWorkIo) (vtables : Nat -> List (Block KeyValue)) (reading : Reading)
    (file : ValueFile) : Except String Reading :=
  match io.input file.number with
  | .cached => reading.scan io vtables file.number
  | .opens => { reading with status := .ok }.scan io vtables file.number
  | .openFails => do
    assertThat (reading.wild = false) "delete it"
    return { reading with status := .failed }
  | .tableFails => .error "table->NewVIterator(options)"

end Reading

/-- The inputs of both levels, in the order in which they are read. -/
def VCompaction.inputs (vcompaction : VCompaction) : List ValueFile :=
  vcompaction.vinputs0 ++ vcompaction.vinputs1

/-- The loop over the inputs. -/
def VCompaction.readInputs (io : VWorkIo) (vtables : Nat -> List (Block KeyValue))
    (vcompaction : VCompaction) : Except String Reading :=
  vcompaction.inputs.foldlM (Reading.visit io vtables) ⟨.ok, [], [], io.wild⟩

/-- The entries that are written. -/
def Reading.merged (reading : Reading) : List VEntry :=
  mergedValues (reading.values.map SourcedValue.entry)

namespace VWorkIo

/-- The last input that had to be opened could not be. -/
def LastOpenFails (io : VWorkIo) (files : List ValueFile) : Prop :=
  ∃ file ∈ (files.filter (fun file => io.input file.number ≠ .cached)).getLast?,
    io.input file.number = .openFails

instance (io : VWorkIo) (files : List ValueFile) : Decidable (io.LastOpenFails files) :=
  inferInstanceAs (Decidable (∃ file ∈ List.getLast? _, _))

/-- The status after an input. -/
def statusAfter (io : VWorkIo) (status : IoStatus) (file : ValueFile) : IoStatus :=
  match io.input file.number with
  | .cached => status
  | .opens => .ok
  | .openFails => .failed
  | .tableFails => .failed

/-- The inputs that are read when the status is the given one before them: those that are
opened, and those that are in `vtables_` already while the status is OK. -/
def scannedFrom (io : VWorkIo) : IoStatus -> List ValueFile -> List ValueFile
  | _, [] => []
  | status, file :: files =>
    if io.input file.number = .opens ∨ io.input file.number = .cached ∧ status = .ok then
      file :: scannedFrom io (io.statusAfter status file) files
    else scannedFrom io (io.statusAfter status file) files

/-- The inputs that are read. -/
def scanned (io : VWorkIo) (files : List ValueFile) : List ValueFile := io.scannedFrom .ok files

/-- Every input can be opened and read to its end. -/
def Readable (io : VWorkIo) (files : List ValueFile) : Prop :=
  ∀ file ∈ files, (io.input file.number = .cached ∨ io.input file.number = .opens) ∧
    io.readFails file.number = false

/-- The loop over the inputs comes to its end: the uninitialised pointer is not deleted, no
table is null, and what is read has no error and keys of the right form. -/
structure Completes (io : VWorkIo) (vtables : Nat -> List (Block KeyValue))
    (files : List ValueFile) : Prop where
  pointer : io.wild = true -> ∀ file ∈ files.head?, io.input file.number ≠ .openFails
  opened : ∀ file ∈ files, io.input file.number ≠ .tableFails
  read : ∀ file ∈ io.scanned files, io.readFails file.number = false ∧
    WellKeyed (vtables file.number)

/-- The entries of the inputs that are read. -/
def values (io : VWorkIo) (vtables : Nat -> List (Block KeyValue)) (files : List ValueFile) :
    List SourcedValue :=
  sourcedInputs vtables (io.scanned files)

variable {io : VWorkIo} {files : List ValueFile}

theorem lastOpenFails_append (files : List ValueFile) {file : ValueFile}
    (opened : io.input file.number ≠ .cached) :
    io.LastOpenFails (files ++ [file]) <-> io.input file.number = .openFails := by
  unfold LastOpenFails
  rw [filter_append, filter_singleton, decide_eq_true opened, cond_true, getLast?_concat]
  exact ⟨fun ⟨_, rfl, fails⟩ => fails, fun fails => ⟨file, rfl, fails⟩⟩

theorem lastOpenFails_append_cached (files : List ValueFile) {file : ValueFile}
    (cached : io.input file.number = .cached) :
    io.LastOpenFails (files ++ [file]) <-> io.LastOpenFails files := by
  unfold LastOpenFails
  rw [filter_append, filter_singleton, decide_eq_false (not_not_intro cached),
    cond_false, append_nil]

/-- The status after the loop tells whether the last input that had to be opened was. -/
theorem foldl_statusAfter (opened : ∀ file ∈ files, io.input file.number ≠ .tableFails) :
    files.foldl io.statusAfter .ok = .failed <-> io.LastOpenFails files := by
  induction files using List.reverseRecOn with
  | nil => exact ⟨nofun, by rintro ⟨_, none, _⟩; cases none⟩
  | append_singleton files file ih =>
    rcases forall_mem_concat.mp opened with ⟨earlier, here⟩
    rw [foldl_append, foldl_cons, foldl_nil, statusAfter]
    cases outcome : io.input file.number with
    | cached => exact (ih earlier).trans (io.lastOpenFails_append_cached files outcome).symm
    | tableFails => exact absurd outcome here
    | opens | openFails =>
      rw [io.lastOpenFails_append files (by rw [outcome]; nofun), outcome]
      simp

theorem scannedFrom_cons (status : IoStatus) (file : ValueFile) (files : List ValueFile) :
    io.scannedFrom status (file :: files) =
      io.scannedFrom status [file] ++ io.scannedFrom (io.statusAfter status file) files := by
  rw [scannedFrom, scannedFrom]
  split <;> rfl

theorem scannedFrom_of_readable (readable : io.Readable files) :
    io.scannedFrom .ok files = files := by
  induction files with
  | nil => rfl
  | cons file files ih =>
    rcases forall_mem_cons.mp readable with ⟨⟨here, _⟩, later⟩
    have status : io.statusAfter .ok file = .ok := by
      rcases here with outcome | outcome <;> rw [statusAfter, outcome]
    rw [scannedFrom, if_pos (here.elim (fun cached => Or.inr ⟨cached, rfl⟩) Or.inl), status,
      ih later]

theorem Readable.completes {vtables : Nat -> List (Block KeyValue)} (readable : io.Readable files)
    (keyed : ∀ file ∈ files, WellKeyed (vtables file.number)) : io.Completes vtables files := by
  have opens {file : ValueFile} (member : file ∈ files) := (readable file member).1
  refine ⟨fun _ file isFirst fails => ?_, fun file member fails => ?_, ?_⟩
  · exact (opens (mem_of_mem_head? isFirst)).elim (fun same => nomatch fails.symm.trans same)
      (fun same => nomatch fails.symm.trans same)
  · exact (opens member).elim (fun same => nomatch fails.symm.trans same)
      (fun same => nomatch fails.symm.trans same)
  · rw [scanned, scannedFrom_of_readable readable]
    exact fun file member => ⟨(readable file member).2, keyed file member⟩

end VWorkIo

variable {io : VWorkIo} {vcompaction : VCompaction} {reading : Reading}

namespace Reading

variable {vtables : Nat -> List (Block KeyValue)} {next : Reading}

theorem scan_eq_ok {number : Nat} : reading.scan io vtables number = .ok next <->
    if reading.status = .ok then
      (io.readFails number = false ∧ WellKeyed (vtables number)) ∧
        next = ⟨.ok, reading.values ++ sourcedValues number (vtables number),
          reading.read ++ [number], false⟩
    else next = { reading with wild := false } := by
  unfold scan
  split
  · rw [assertThat_bind_eq_ok, bind_eq_ok]
    simp only [readSourced_eq_ok]
    constructor
    · rintro ⟨fine, _, ⟨keyed, rfl⟩, ⟨⟩⟩
      exact ⟨⟨fine, keyed⟩, rfl⟩
    · rintro ⟨⟨fine, keyed⟩, rfl⟩
      exact ⟨fine, _, ⟨keyed, rfl⟩, rfl⟩
  · rw [Except.ok.injEq, eq_comm]

/-- One input, with all that it depends on and all that it does. -/
theorem visit_eq_ok {file : ValueFile} : reading.visit io vtables file = .ok next <->
    (reading.wild = true -> io.input file.number ≠ .openFails) ∧
    io.input file.number ≠ .tableFails ∧
    (∀ other ∈ io.scannedFrom reading.status [file], io.readFails other.number = false ∧
      WellKeyed (vtables other.number)) ∧
    next = ⟨io.statusAfter reading.status file,
      reading.values ++ sourcedInputs vtables (io.scannedFrom reading.status [file]),
      reading.read ++ (io.scannedFrom reading.status [file]).map FileMetaData.number, false⟩ := by
  unfold visit
  cases outcome : io.input file.number with
  | tableFails => simp
  | openFails =>
    rw [assertThat_return_eq_ok, VWorkIo.statusAfter, outcome]
    have nothing : io.scannedFrom reading.status [file] = [] := by
      simp [VWorkIo.scannedFrom, outcome]
    rw [nothing, sourcedInputs, flatMap_nil, map_nil, append_nil, append_nil]
    constructor
    · rintro ⟨tame, rfl⟩
      exact ⟨fun wild => absurd (tame.symm.trans wild) nofun, nofun, nofun, by rw [tame]⟩
    · rintro ⟨tame, _, _, rfl⟩
      have isTame : reading.wild = false := Bool.eq_false_of_not_eq_true (fun wild => tame wild rfl)
      exact ⟨isTame, by rw [isTame]⟩
  | opens =>
    simp [scan_eq_ok, VWorkIo.scannedFrom, VWorkIo.statusAfter, outcome, sourcedInputs]
  | cached =>
    rw [scan_eq_ok]
    split
    · next fine => simp [VWorkIo.scannedFrom, VWorkIo.statusAfter, outcome, fine, sourcedInputs]
    · next bad => simp [VWorkIo.scannedFrom, VWorkIo.statusAfter, outcome, bad, sourcedInputs]

/-- The loop over some inputs. -/
theorem foldlM_visit (files : List ValueFile) :
    files.foldlM (visit io vtables) reading = .ok next <->
      (reading.wild = true -> ∀ file ∈ files.head?, io.input file.number ≠ .openFails) ∧
      (∀ file ∈ files, io.input file.number ≠ .tableFails) ∧
      (∀ file ∈ io.scannedFrom reading.status files, io.readFails file.number = false ∧
        WellKeyed (vtables file.number)) ∧
      next = ⟨files.foldl io.statusAfter reading.status,
        reading.values ++ sourcedInputs vtables (io.scannedFrom reading.status files),
        reading.read ++ (io.scannedFrom reading.status files).map FileMetaData.number,
        reading.wild && files.isEmpty⟩ := by
  induction files generalizing reading with
  | nil =>
    rw [VWorkIo.scannedFrom, sourcedInputs, flatMap_nil, map_nil, append_nil, append_nil,
      isEmpty_nil, Bool.and_true]
    exact ⟨fun same => ⟨nofun, nofun, nofun, (Except.ok.inj same).symm⟩,
      fun all => congrArg Except.ok all.2.2.2.symm⟩
  | cons file files ih =>
    rw [foldlM_cons, bind_eq_ok, VWorkIo.scannedFrom_cons, sourcedInputs, flatMap_append, map_append,
      forall_mem_append, forall_mem_cons, foldl_cons, isEmpty_cons, Bool.and_false]
    simp only [ih, visit_eq_ok]
    constructor
    · rintro ⟨_, ⟨pointer, opened, read, rfl⟩, _, later, readLater, rfl⟩
      refine ⟨fun wild => ?_, ⟨opened, later⟩, ⟨read, readLater⟩, ?_⟩
      · rintro _ ⟨⟩
        exact pointer wild
      · rw [append_assoc, append_assoc, Bool.false_and]
        rfl
    · rintro ⟨pointer, ⟨opened, later⟩, ⟨read, readLater⟩, rfl⟩
      refine ⟨_, ⟨fun wild => pointer wild file rfl, opened, read, rfl⟩, nofun, later, readLater, ?_⟩
      rw [append_assoc, append_assoc, Bool.false_and]
      rfl

end Reading

/-- The loop ends with the entries of the inputs that it has read. -/
theorem VCompaction.readInputs_eq_ok {vtables : Nat -> List (Block KeyValue)} :
    vcompaction.readInputs io vtables = .ok reading <->
      io.Completes vtables vcompaction.inputs ∧
      reading = ⟨vcompaction.inputs.foldl io.statusAfter .ok,
        io.values vtables vcompaction.inputs,
        (io.scanned vcompaction.inputs).map FileMetaData.number,
        io.wild && vcompaction.inputs.isEmpty⟩ := by
  unfold readInputs
  rw [Reading.foldlM_visit]
  exact ⟨fun ⟨pointer, opened, read, same⟩ => ⟨⟨pointer, opened, read⟩, same⟩,
    fun ⟨completes, same⟩ => ⟨completes.pointer, completes.opened, completes.read, same⟩⟩

section Graph

variable {graph next : BlockGraph} {placed : List (Placed KeyValue)}

theorem BlockRange.size_single (block : Nat) : (BlockRange.mk block block).size = 1 := by
  simp [size]

theorem BlockGraph.addMapping_eq_ok {originFile block newFile : Nat} {newRange : BlockRange} :
    graph.addMapping originFile ⟨block, block⟩ newFile newRange = .ok next <->
      newRange.size = 1 ∧ next = Function.update graph ⟨originFile, block⟩
        (some ⟨newFile, ⟨newRange.startBlock, newRange.startBlock⟩, 1⟩) := by
  unfold addMapping
  rw [assertThat_bind_eq_ok, BlockRange.size_single]
  exact and_congr eq_comm ⟨fun same => by cases same; rfl, fun same => by rw [same]; rfl⟩

/-- The output blocks that `AddMapping` is called with for a block. -/
def outputRange (mappings : List (BlockLocation × Nat)) (location : BlockLocation) : BlockRange :=
  ⟨(outputBlocks mappings location).foldl min ((outputBlocks mappings location).headD 0),
    (outputBlocks mappings location).foldl max ((outputBlocks mappings location).headD 0)⟩

variable {mappings : List (BlockLocation × Nat)} {newFile : Nat}

theorem BlockGraph.addMappings_eq_ok : graph.addMappings mappings newFile = .ok next <->
    (∀ location ∈ mappings.map Prod.fst, (outputRange mappings location).size = 1) ∧
      next = fun location => if location ∈ mappings.map Prod.fst then
        some ⟨newFile, ⟨(outputRange mappings location).startBlock,
          (outputRange mappings location).startBlock⟩, 1⟩ else graph location := by
  unfold addMappings
  simp only [<- mem_dedup (l := mappings.map Prod.fst)]
  induction (mappings.map Prod.fst).dedup generalizing graph with
  | nil => simp [Pure.pure, Except.pure, eq_comm]
  | cons location locations ih =>
    rw [foldlM_cons, bind_eq_ok]
    simp only [addMapping_eq_ok, ih, forall_mem_cons]
    -- a later location does not overwrite the entry of an earlier one
    have entries : ∀ value : BlockLocation -> Option MappingEntry,
        (fun here => if here ∈ locations then value here else
          Function.update graph location (value location) here) =
        fun here => if here ∈ location :: locations then value here else graph here := by
      intro _
      funext here
      by_cases same : here = location
      · simp [same]
      · simp [same]
    constructor
    · rintro ⟨_, ⟨one, rfl⟩, rest, rfl⟩
      exact ⟨⟨one, rest⟩, entries _⟩
    · rintro ⟨⟨one, rest⟩, rfl⟩
      exact ⟨_, ⟨one, rfl⟩, rest, (entries _).symm⟩

/-- The entries of one block all go to one block. -/
def Together (mappings : List (BlockLocation × Nat)) : Prop :=
  ∀ first ∈ mappings, ∀ second ∈ mappings, first.1 = second.1 -> first.2 = second.2

theorem mem_outputBlocks {location : BlockLocation} {block : Nat} :
    block ∈ outputBlocks mappings location <-> (location, block) ∈ mappings := by
  simp [outputBlocks]

/-- The range is from the smallest to the largest block, which are among the blocks. -/
theorem outputRange_spec {mapping : BlockLocation × Nat} (member : mapping ∈ mappings) :
    (∀ block, (mapping.1, block) ∈ mappings ->
      (outputRange mappings mapping.1).startBlock ≤ block ∧
        block ≤ (outputRange mappings mapping.1).endBlock) ∧
      (mapping.1, (outputRange mappings mapping.1).startBlock) ∈ mappings ∧
      (mapping.1, (outputRange mappings mapping.1).endBlock) ∈ mappings := by
  rcases exists_cons_of_ne_nil (ne_nil_of_mem (mem_outputBlocks.mpr member)) with
    ⟨first, blocks, isCons⟩
  have same : ∀ block, block ∈ first :: outputBlocks mappings mapping.1 <->
      block ∈ outputBlocks mappings mapping.1 := by
    simp [isCons]
  have low := List.min?_eq_some_iff.mp
    (List.min?_cons' : (first :: outputBlocks mappings mapping.1).min? = _)
  have high := List.max?_eq_some_iff.mp
    (List.max?_cons' : (first :: outputBlocks mappings mapping.1).max? = _)
  have start : (outputBlocks mappings mapping.1).headD 0 = first := by rw [isCons, headD_cons]
  simp only [same, mem_outputBlocks] at low high
  simp only [outputRange, start]
  exact ⟨fun block found => ⟨low.2 block found, high.2 block found⟩, low.1, high.1⟩

theorem Together.outputRange (together : Together mappings) {mapping : BlockLocation × Nat}
    (member : mapping ∈ mappings) :
    outputRange mappings mapping.1 = ⟨mapping.2, mapping.2⟩ := by
  rcases outputRange_spec member with ⟨_, low, high⟩
  exact BlockRange.mk.injEq .. ▸
    ⟨together _ low mapping member rfl, together _ high mapping member rfl⟩

/-- The assertion of `AddMapping` holds in all calls just if no block is split. -/
theorem BlockGraph.addMappings_returns_iff (small : ∀ mapping ∈ mappings, mapping.2 < 2 ^ 32) :
    (∃ next, graph.addMappings mappings newFile = .ok next) <-> Together mappings := by
  simp only [addMappings_eq_ok, exists_and_left, exists_eq, and_true, forall_mem_map]
  constructor
  · intro sizes first isFirst second isSecond same
    rcases outputRange_spec isFirst with ⟨inside, low, high⟩
    have here := inside first.2 isFirst
    have there := inside second.2 (same ▸ isSecond)
    have one := sizes first isFirst
    have bound := small _ high
    unfold BlockRange.size at one
    omega
  · intro together mapping member
    rw [together.outputRange member, BlockRange.size_single]

/-- What the calls of `AddMapping` leave in the graph. -/
theorem BlockGraph.addMappings_maps (small : ∀ mapping ∈ mappings, mapping.2 < 2 ^ 32)
    (added : graph.addMappings mappings newFile = .ok next) {mapping : BlockLocation × Nat}
    (member : mapping ∈ mappings) :
    next mapping.1 = some ⟨newFile, ⟨mapping.2, mapping.2⟩, 1⟩ := by
  have together := (addMappings_returns_iff small).mp ⟨next, added⟩
  rw [(addMappings_eq_ok.mp added).2]
  simp only [mem_map_of_mem member, together.outputRange member, if_true]

theorem BlockGraph.addMappings_eq_some (added : graph.addMappings mappings newFile = .ok next)
    {location : BlockLocation} {entry : MappingEntry} (here : next location = some entry) :
    graph location = some entry ∨ entry.newFileNumber = newFile := by
  rw [(addMappings_eq_ok.mp added).2] at here
  dsimp only at here
  split at here
  · cases here
    exact Or.inr rfl
  · exact Or.inl here

variable {values : List SourcedValue} {written : List VEntry}

theorem mem_blockMappings {mapping : BlockLocation × Nat} :
    mapping ∈ blockMappings values written placed <-> ∃ pair ∈ written.zip placed,
      sourceOf values pair.1 = some mapping.1 ∧ pair.2.blockNumber % 2 ^ 32 = mapping.2 := by
  simp [blockMappings, Prod.ext_iff, <- and_assoc]

theorem blockMappings_small : ∀ mapping ∈ blockMappings values written placed,
    mapping.2 < 2 ^ 32 := by
  intro mapping member
  rcases mem_blockMappings.mp member with ⟨pair, _, _, block⟩
  rw [<- block]
  exact Nat.mod_lt _ (Nat.two_pow_pos 32)

/-- The block into which an entry goes: the entries before it decide how many blocks are closed
by then.  Blocks are counted in 32 bits. -/
def outputBlock (options : BlockOptions) (kept : List VEntry) (place : Nat) : Nat :=
  closedBlocks (keyValueFormat vkeyLess) options ((kept.take place).map VEntry.row) % 2 ^ 32

/-- No block of an input is split: the entries before any two survivors from one block close
equally many blocks. -/
def Unsplit (options : BlockOptions) (values : List SourcedValue) : Prop :=
  ∀ kept, Survivors (values.map SourcedValue.entry) kept -> ∀ (place other : Nat) first second,
    kept[place]? = some first -> kept[other]? = some second ->
      sourceOf values first = sourceOf values second ->
        outputBlock options kept place = outputBlock options kept other

variable {options : BlockOptions} {kept : List VEntry} {table : BuiltTable KeyValue}
  (built : buildTable (keyValueFormat vkeyLess) options (kept.map VEntry.row) = .ok table)
include built

theorem blockNumber_eq_outputBlock
    {index : Nat} {place : Placed KeyValue} (here : table.placed[index]? = some place) :
    place.blockNumber % 2 ^ 32 = outputBlock options kept index := by
  rw [blockNumber_of_buildTable built here, outputBlock, map_take]

theorem exists_placed {index : Nat} {entry : VEntry} (here : kept[index]? = some entry) :
    ∃ place, table.placed[index]? = some place ∧ place.entry = entry.row := by
  have placed := congrArg (fun rows => rows[index]?) (buildTable_eq_ok built).placed
  simp only [getElem?_map, here, Option.map_some] at placed
  exact Option.map_eq_some_iff.mp placed

theorem mem_blockMappings_of_getElem? {index : Nat} {entry : VEntry}
    (here : kept[index]? = some entry) {location : BlockLocation}
    (noted : sourceOf values entry = some location) :
    (location, outputBlock options kept index) ∈ blockMappings values kept table.placed := by
  rcases exists_placed built here with ⟨place, there, _⟩
  refine mem_blockMappings.mpr ⟨(entry, place), ?_, noted, blockNumber_eq_outputBlock built there⟩
  exact mem_of_getElem? (getElem?_zip_eq_some.mpr ⟨here, there⟩)

/-- The calls of `AddMapping` for a table keep blocks together just if no block is split. -/
theorem together_iff_unsplit (survivors : Survivors (values.map SourcedValue.entry) kept) :
    Together (blockMappings values kept table.placed) <-> Unsplit options values := by
  constructor
  · intro together other others place later first second isFirst isSecond same
    cases others.unique survivors
    have member := Survives.mem ((survivors.mem_iff first).mp (mem_of_getElem? isFirst))
    rcases exists_sourceOf member with ⟨source, _, _, found⟩
    exact together _ (mem_blockMappings_of_getElem? built isFirst found) _
      (mem_blockMappings_of_getElem? built isSecond (same ▸ found)) rfl
  · intro unsplit first isFirst second isSecond same
    rcases mem_blockMappings.mp isFirst with ⟨pair, isPair, source, isBlock⟩
    rcases mem_blockMappings.mp isSecond with ⟨other, isOther, otherSource, isOtherBlock⟩
    rcases getElem?_of_mem isPair with ⟨_, atPair⟩
    rcases getElem?_of_mem isOther with ⟨_, atOther⟩
    rcases getElem?_zip_eq_some.mp atPair with ⟨here, placed⟩
    rcases getElem?_zip_eq_some.mp atOther with ⟨there, otherPlaced⟩
    rw [<- isBlock, <- isOtherBlock, blockNumber_eq_outputBlock built placed,
      blockNumber_eq_outputBlock built otherPlaced]
    exact unsplit kept survivors _ _ _ _ here there (by rw [source, otherSource, same])

end Graph

namespace VWorkIo

variable (io : VWorkIo) (vtables : Nat -> List (Block KeyValue)) (files : List ValueFile)

/-- Some entry is left to write. -/
def SomeSurvives : Prop :=
  ∃ entry, Survives ((io.values vtables files).map SourcedValue.entry) entry

/-- The call comes to its end, with whatever status: the inputs are read, and once an output is
written the assertion of `AddMapping` holds. -/
structure Ends (options : BlockOptions) : Prop where
  completes : io.Completes vtables files
  unsplit : io.SomeSurvives vtables files -> io.openOutput = true -> io.finishOutput = true ->
    Unsplit options (io.values vtables files)

/-- The call comes to `LogAndApply`.  With nothing to write it does so unless the last input that
had to be opened could not be. -/
def ReachesLog : Prop :=
  io.SomeSurvives vtables files ∧ io.openOutput = true ∧ io.finishOutput = true ∨
    ¬ io.SomeSurvives vtables files ∧ ¬ io.LastOpenFails files

variable {io vtables files}

theorem someSurvives_iff : io.SomeSurvives vtables files <->
    mergedValues ((io.values vtables files).map SourcedValue.entry) ≠ [] := by
  simp only [SomeSurvives, <- mem_mergedValues, ne_eq, eq_nil_iff_forall_not_mem, not_forall,
    not_not]

end VWorkIo

/-- The entries that are left can always be written. -/
theorem Reading.exists_buildTable (options : BlockOptions) (reading : Reading) : ∃ table,
    buildTable (keyValueFormat vkeyLess) options (reading.merged.map VEntry.row) = .ok table := by
  refine buildTable_total options (Pairwise.isChain (pairwise_map.mpr ?_))
  exact (mergedValues_increasing _).imp (fun less => (vkeyLess_encode _ _).mpr less)

section
variable [LinearOrder UserKey]

namespace VersionState

/-- `LogAndApply` with `MOD` 10.  The graph of the current version goes to the new
version, and it is saved before the manifest is synced. -/
def logAndApply (config : Config) (io : LogIo) (state : VersionState)
    (edit : VersionEdit InternalKey VKey) : Except String (IoStatus × VersionState) := do
  let next <- state.db.logAndApply config edit
  if io.manifest = .failed ∨ io.save = .notOpened then return (.failed, state)
  else do
    let saved := { state with savedGraph := io.save.leaves state.graph }
    if io.sync = .failed then return (.failed, saved) else return (.ok, { saved with db := next })

/-- The end of `DoVCompactionWork` when no entry is left: the inputs are deleted. -/
def deleteInputs (config : Config) (io : VWorkIo) (vcompaction : VCompaction)
    (reading : Reading) (state : VersionState) : Except String VWorkResult :=
  if reading.status = .ok then do
    let logged <- state.logAndApply config io.log (vcompaction.deletions VersionEdit.empty)
    return ⟨logged.1, logged.2, reading.read⟩
  else .ok ⟨reading.status, state, reading.read⟩

def outputFile (config : Config) (state : VersionState) (output : VOutput) : ValueFile :=
  ⟨state.db.nextFileNumber, config.vtableSize output.blocks, output.smallest, output.largest⟩

/-- The state with the file of the output, which has taken a number. -/
def withOutput (state : VersionState) (blocks : List (Block KeyValue)) : VersionState :=
  { state with db := { state.db with
    vtables := Function.update state.db.vtables state.db.nextFileNumber blocks
    nextFileNumber := state.db.nextFileNumber + 1 } }

/-- The end of `DoVCompactionWork` once the output is written. -/
def installOutput (config : Config) (io : VWorkIo) (vcompaction : VCompaction)
    (reading : Reading) (state : VersionState) (placed : List (Placed KeyValue))
    (output : VOutput) : Except String VWorkResult :=
  let written := state.withOutput output.blocks
  if io.finishOutput = false then .ok ⟨.failed, { written with bgError := true }, reading.read⟩
  else do
    let graph <- state.graph.addMappings
      (blockMappings reading.values reading.merged placed) state.db.nextFileNumber
    let logged <- { written with graph := graph }.logAndApply config io.log
      (vcompaction.resultEdit (state.outputFile config output))
    return ⟨logged.1, { logged.2 with bgError := logged.2.bgError || logged.1 = .failed },
      reading.read⟩

/-- Write the entries that are left, of which the first is given. -/
def writeMerged (config : Config) (io : VWorkIo) (vcompaction : VCompaction)
    (reading : Reading) (state : VersionState) (first : VEntry) (rest : List VEntry) :
    Except String VWorkResult :=
  if io.openOutput = false then
    .ok ⟨.failed, { state with db := { state.db with
      nextFileNumber := state.db.nextFileNumber + 1 } }, reading.read⟩
  else do
    let table <- buildTable (keyValueFormat vkeyLess) config.blockOptions
      ((first :: rest).map VEntry.row)
    state.installOutput config io vcompaction reading table.placed
      ⟨table.blocks, first.vkey, (rest.getLastD first).vkey⟩

/-- `DoVCompactionWork` with `MOD` 10, up to the compactions of the key tree that follow
a success. -/
def doVCompactionWork (config : Config) (io : VWorkIo) (vcompaction : VCompaction)
    (state : VersionState) : Except String VWorkResult := do
  assertThat (state.db.current.vfiles 0 ≠ [])
    "versions_->NumLevelVFiles(compact->compaction->level()) > 0"
  let reading <- vcompaction.readInputs io state.db.vtables
  match reading.merged with
  | [] => state.deleteInputs config io vcompaction reading
  | first :: rest => state.writeMerged config io vcompaction reading first rest

end VersionState

variable {config : Config} {state : VersionState} {result : VWorkResult} {first : VEntry}
  {rest : List VEntry} {placed : List (Placed KeyValue)}

namespace VersionState

/-- What `LogAndApply` does to a state: the graph stays, what is saved is the graph or nothing
new, and the files change exactly if the status is OK. -/
structure AfterLog (config : Config) (io : LogIo) (edit : VersionEdit InternalKey VKey)
    (state : VersionState) (logged : IoStatus × VersionState) : Prop where
  graph : logged.2.graph = state.graph
  saved : forall location entry, logged.2.savedGraph location = some entry ->
    state.savedGraph location = some entry ∨ state.graph location = some entry
  ok : io.Returns -> logged.1 = .ok ∧ logged.2.db = state.db.edited config edit
  failed : ¬ io.Returns -> logged.1 = .failed ∧ logged.2.db = state.db

theorem logAndApply_eq_ok {log : LogIo} {edit : VersionEdit InternalKey VKey}
    {logged : IoStatus × VersionState} (returns : state.logAndApply config log edit = .ok logged) :
    AfterLog config log edit state logged := by
  rcases bind_eq_ok.mp returns with ⟨_, applied, outcome⟩
  rcases (Database.logAndApply_eq_ok.mp applied) with ⟨_, _, rfl⟩
  have saves (location : BlockLocation) (entry : MappingEntry)
      (here : log.save.leaves state.graph location = some entry) :
      state.savedGraph location = some entry ∨ state.graph location = some entry := by
    unfold SaveIo.leaves at here
    split at here
    · exact Or.inr here
    · cases here
  split at outcome
  next fails =>
    cases outcome
    exact ⟨rfl, fun _ _ => Or.inl, fun returns => absurd fails (by simp [returns.1, returns.2.1]),
      fun _ => ⟨rfl, rfl⟩⟩
  next goes =>
    rcases not_or.mp goes with ⟨written, opened⟩
    split at outcome
    next unsynced =>
      cases outcome
      exact ⟨rfl, saves, fun returns => absurd unsynced (by simp [returns.2.2]),
        fun _ => ⟨rfl, rfl⟩⟩
    next synced =>
      cases outcome
      exact ⟨rfl, saves, fun _ => ⟨rfl, rfl⟩, fun stops => absurd
        ⟨IoStatus.ne_failed.mp written, opened, IoStatus.ne_failed.mp synced⟩ stops⟩

/-- `LogAndApply` takes no file number and leaves the tables alone. -/
theorem AfterLog.keeps {log : LogIo} {edit : VersionEdit InternalKey VKey}
    {logged : IoStatus × VersionState} (after : AfterLog config log edit state logged) :
    logged.2.db.nextFileNumber = state.db.nextFileNumber ∧
      logged.2.db.vtables = state.db.vtables := by
  by_cases returns : log.Returns
  · rw [(after.ok returns).2]
    exact ⟨rfl, rfl⟩
  · rw [(after.failed returns).2]
    exact ⟨rfl, rfl⟩

theorem logAndApply_total (state : VersionState) (ten : config.mod = 10)
    (layered : Layered state.db.current.files state.db.tables) (log : LogIo)
    {edit : VersionEdit InternalKey VKey} (valueEdit : VCompaction.ValueEdit edit) :
    ∃ logged, state.logAndApply config log edit = .ok logged := by
  have applied := (logAndApply_valueEdit ten layered valueEdit).1
  unfold logAndApply
  simp only [applied]
  split
  · exact ⟨_, rfl⟩
  · split <;> exact ⟨_, rfl⟩

theorem deleteInputs_eq_ok
    (returns : state.deleteInputs config io vcompaction reading = .ok result) :
    reading.status = .ok ∧ (∃ logged,
      AfterLog config io.log (vcompaction.deletions VersionEdit.empty) state logged ∧
        result = ⟨logged.1, logged.2, reading.read⟩) ∨
    reading.status = .failed ∧ result = ⟨.failed, state, reading.read⟩ := by
  unfold deleteInputs at returns
  cases status : reading.status with
  | ok =>
    rw [if_pos status] at returns
    rcases bind_eq_ok.mp returns with ⟨logged, logs, equal⟩
    exact Or.inl ⟨rfl, logged, logAndApply_eq_ok logs, (Except.ok.inj equal).symm⟩
  | failed =>
    rw [if_neg (by rw [status]; nofun), status] at returns
    exact Or.inr ⟨rfl, (Except.ok.inj returns).symm⟩

theorem installOutput_eq_ok {output : VOutput}
    (returns : state.installOutput config io vcompaction reading placed output = .ok result) :
    io.finishOutput = false ∧
      result = ⟨.failed, { state.withOutput output.blocks with bgError := true }, reading.read⟩ ∨
    io.finishOutput = true ∧ ∃ graph logged,
      state.graph.addMappings (blockMappings reading.values reading.merged placed)
        state.db.nextFileNumber = .ok graph ∧
      AfterLog config io.log (vcompaction.resultEdit (state.outputFile config output))
        { state.withOutput output.blocks with graph := graph } logged ∧
      result = ⟨logged.1, { logged.2 with
        bgError := logged.2.bgError || logged.1 = .failed }, reading.read⟩ := by
  unfold installOutput at returns
  cases finished : io.finishOutput with
  | false =>
    rw [if_pos finished] at returns
    exact Or.inl ⟨rfl, (Except.ok.inj returns).symm⟩
  | true =>
    rw [if_neg (by rw [finished]; nofun)] at returns
    rcases bind_eq_ok.mp returns with ⟨graph, added, logging⟩
    rcases bind_eq_ok.mp logging with ⟨logged, logs, equal⟩
    exact Or.inr ⟨rfl, graph, logged, added, logAndApply_eq_ok logs, (Except.ok.inj equal).symm⟩

theorem writeMerged_eq_ok (merged : reading.merged = first :: rest)
    (returns : state.writeMerged config io vcompaction reading first rest = .ok result) :
    io.openOutput = false ∧ result = ⟨.failed, { state with db := { state.db with
      nextFileNumber := state.db.nextFileNumber + 1 } }, reading.read⟩ ∨
    io.openOutput = true ∧ ∃ table, buildTable (keyValueFormat vkeyLess) config.blockOptions
        (reading.merged.map VEntry.row) = .ok table ∧
      state.installOutput config io vcompaction reading table.placed
        ⟨table.blocks, first.vkey, (rest.getLastD first).vkey⟩ = .ok result := by
  unfold writeMerged at returns
  rw [<- merged] at returns
  cases opened : io.openOutput with
  | false =>
    rw [if_pos opened] at returns
    exact Or.inl ⟨rfl, (Except.ok.inj returns).symm⟩
  | true =>
    rw [if_neg (by rw [opened]; nofun)] at returns
    exact Or.inr ⟨rfl, bind_eq_ok.mp returns⟩

end VersionState

/-- The result of a call after its inputs are read: it is a success exactly when the
given operations succeed, and a failure keeps the files of the version. -/
structure VWorkResult.Follows (before : VersionState) (reading : Reading) (succeeds : Prop)
    (result : VWorkResult) : Prop where
  read : result.read = reading.read
  ok : succeeds -> result.status = .ok
  failed : ¬ succeeds -> result.status = .failed ∧ result.state.db.current = before.db.current

namespace VersionState

theorem deleteInputs_follows
    (returns : state.deleteInputs config io vcompaction reading = .ok result) :
    result.Follows state reading (reading.status = .ok ∧ io.log.Returns) := by
  rcases deleteInputs_eq_ok returns with ⟨fine, _, after, rfl⟩ | ⟨bad, rfl⟩
  · refine ⟨rfl, fun succeeds => (after.ok succeeds.2).1, fun stops => ?_⟩
    rcases after.failed (fun succeeds => stops ⟨fine, succeeds⟩) with ⟨failed, same⟩
    exact ⟨failed, congrArg Database.current same⟩
  · exact ⟨rfl, fun succeeds => (nomatch bad.symm.trans succeeds.1), fun _ => ⟨rfl, rfl⟩⟩

theorem installOutput_follows {output : VOutput}
    (returns : state.installOutput config io vcompaction reading placed output = .ok result) :
    result.Follows state reading (io.finishOutput = true ∧ io.log.Returns) := by
  rcases installOutput_eq_ok returns with ⟨unfinished, rfl⟩ | ⟨finished, _, _, _, after, rfl⟩
  · exact ⟨rfl, fun succeeds => (nomatch unfinished.symm.trans succeeds.1), fun _ => ⟨rfl, rfl⟩⟩
  · refine ⟨rfl, fun succeeds => (after.ok succeeds.2).1, fun stops => ?_⟩
    rcases after.failed (fun succeeds => stops ⟨finished, succeeds⟩) with ⟨failed, same⟩
    exact ⟨failed, (congrArg Database.current same).trans rfl⟩

theorem writeMerged_follows (merged : reading.merged = first :: rest)
    (returns : state.writeMerged config io vcompaction reading first rest = .ok result) :
    result.Follows state reading
      (io.openOutput = true ∧ io.finishOutput = true ∧ io.log.Returns) := by
  rcases writeMerged_eq_ok merged returns with ⟨unopened, rfl⟩ | ⟨opened, _, _, installs⟩
  · exact ⟨rfl, fun succeeds => (nomatch unopened.symm.trans succeeds.1), fun _ => ⟨rfl, rfl⟩⟩
  · have follows := installOutput_follows installs
    exact ⟨follows.read, fun succeeds => follows.ok succeeds.2,
      fun stops => follows.failed (fun succeeds => stops ⟨opened, succeeds⟩)⟩

/-- A call that returns has read its inputs, and then either deletes them or writes
what is left of them. -/
theorem doVCompactionWork_eq_ok : state.doVCompactionWork config io vcompaction = .ok result <->
    state.db.current.vfiles 0 ≠ [] ∧
    ∃ reading, vcompaction.readInputs io state.db.vtables = .ok reading ∧
      (reading.merged = [] ∧ state.deleteInputs config io vcompaction reading = .ok result ∨
        ∃ first rest, reading.merged = first :: rest ∧
          state.writeMerged config io vcompaction reading first rest = .ok result) := by
  unfold doVCompactionWork
  rw [assertThat_bind_eq_ok, bind_eq_ok]
  refine and_congr_right' (exists_congr fun reading => and_congr_right' ?_)
  cases reading.merged with
  | nil => simp
  | cons first rest => simp

/-- A call that returns is a success exactly when it comes to `LogAndApply` and this returns
OK. -/
theorem doVCompactionWork_follows
    (returns : state.doVCompactionWork config io vcompaction = .ok result) :
    ∃ reading, vcompaction.readInputs io state.db.vtables = .ok reading ∧ result.Follows state
      reading (io.ReachesLog state.db.vtables vcompaction.inputs ∧ io.log.Returns) := by
  rcases doVCompactionWork_eq_ok.mp returns with ⟨_, reading, reads, finish⟩
  rcases VCompaction.readInputs_eq_ok.mp reads with ⟨completes, rfl⟩
  refine ⟨_, reads, ?_⟩
  rcases finish with ⟨merged, deletes⟩ | ⟨_, _, merged, writes⟩
  · have nothing : ¬ io.SomeSurvives state.db.vtables vcompaction.inputs :=
      fun some => VWorkIo.someSurvives_iff.mp some merged
    have reaches : io.ReachesLog state.db.vtables vcompaction.inputs <->
        vcompaction.inputs.foldl io.statusAfter .ok = .ok := by
      rw [VWorkIo.ReachesLog, <- VWorkIo.foldl_statusAfter completes.opened]
      simp [nothing, IoStatus.ne_failed]
    simpa only [reaches] using deleteInputs_follows deletes
  · have some : io.SomeSurvives state.db.vtables vcompaction.inputs :=
      VWorkIo.someSurvives_iff.mpr (fun none => nomatch merged.symm.trans none)
    have reaches : io.ReachesLog state.db.vtables vcompaction.inputs <->
        io.openOutput = true ∧ io.finishOutput = true := by
      simp [VWorkIo.ReachesLog, some]
    simpa only [reaches, and_assoc] using writeMerged_follows merged writes

theorem deleteInputs_returns (ten : config.mod = 10)
    (layered : Layered state.db.current.files state.db.tables) :
    ∃ result, state.deleteInputs config io vcompaction reading = .ok result := by
  rcases logAndApply_total state ten layered io.log vcompaction.valueEdit_deletions with
    ⟨_, logs⟩
  unfold deleteInputs
  split
  · exact ⟨_, bind_eq_ok.mpr ⟨_, logs, rfl⟩⟩
  · exact ⟨_, rfl⟩

theorem installOutput_returns_iff (ten : config.mod = 10)
    (layered : Layered state.db.current.files state.db.tables) {output : VOutput} :
    (∃ result, state.installOutput config io vcompaction reading placed output = .ok result) <->
      (io.finishOutput = true -> Together (blockMappings reading.values reading.merged placed)) := by
  unfold installOutput
  dsimp only
  cases io.finishOutput with
  | false => exact ⟨fun _ => nofun, fun _ => ⟨_, rfl⟩⟩
  | true =>
    rw [if_neg Bool.true_eq_false.mp, forall_prop_of_true rfl,
      <- BlockGraph.addMappings_returns_iff blockMappings_small]
    constructor
    · rintro ⟨_, returns⟩
      rcases bind_eq_ok.mp returns with ⟨graph, added, _⟩
      exact ⟨graph, added⟩
    · rintro ⟨graph, added⟩
      rcases logAndApply_total { state.withOutput output.blocks with graph := graph } ten layered
        io.log (vcompaction.valueEdit_resultEdit (state.outputFile config output)) with
        ⟨logged, logs⟩
      exact ⟨_, bind_eq_ok.mpr ⟨graph, added, bind_eq_ok.mpr ⟨logged, logs, rfl⟩⟩⟩

theorem writeMerged_returns_iff (ten : config.mod = 10)
    (layered : Layered state.db.current.files state.db.tables)
    (merged : reading.merged = first :: rest) :
    (∃ result, state.writeMerged config io vcompaction reading first rest = .ok result) <->
      (io.openOutput = true -> io.finishOutput = true ->
        Unsplit config.blockOptions reading.values) := by
  unfold writeMerged
  cases io.openOutput with
  | false => exact ⟨fun _ => nofun, fun _ => ⟨_, rfl⟩⟩
  | true =>
    rcases reading.exists_buildTable config.blockOptions with ⟨table, built⟩
    have same := together_iff_unsplit built (survivors_mergedValues _)
    rw [if_neg Bool.true_eq_false.mp, forall_prop_of_true rfl, <- same, <- merged, built]
    exact installOutput_returns_iff ten layered

/-- Exactly the calls that are described by `Ends` return. -/
theorem doVCompactionWork_returns_iff (ten : config.mod = 10)
    (layered : Layered state.db.current.files state.db.tables)
    (filled : state.db.current.vfiles 0 ≠ []) :
    (∃ result, state.doVCompactionWork config io vcompaction = .ok result) <->
      io.Ends state.db.vtables vcompaction.inputs config.blockOptions := by
  constructor
  · rintro ⟨_, returns⟩
    rcases doVCompactionWork_eq_ok.mp returns with ⟨_, _, read, finish⟩
    rcases VCompaction.readInputs_eq_ok.mp read with ⟨completes, rfl⟩
    refine ⟨completes, fun some => ?_⟩
    rcases finish with ⟨merged, _⟩ | ⟨_, _, merged, writes⟩
    · exact absurd merged (VWorkIo.someSurvives_iff.mp some)
    · exact (writeMerged_returns_iff ten layered merged).mp ⟨_, writes⟩
  · intro ends
    have read := VCompaction.readInputs_eq_ok.mpr ⟨ends.completes, rfl⟩
    generalize isReading : Reading.mk _ _ _ _ = reading at read
    have values : io.values state.db.vtables vcompaction.inputs = reading.values :=
      congrArg Reading.values isReading
    cases merged : reading.merged with
    | nil =>
      rcases deleteInputs_returns ten layered with ⟨result, deletes⟩
      exact ⟨result, doVCompactionWork_eq_ok.mpr
        ⟨filled, reading, read, Or.inl ⟨merged, deletes⟩⟩⟩
    | cons first rest =>
      have some : io.SomeSurvives state.db.vtables vcompaction.inputs := by
        rw [VWorkIo.someSurvives_iff, values]
        exact fun none => nomatch merged.symm.trans none
      rcases (writeMerged_returns_iff ten layered merged).mpr (values ▸ ends.unsplit some) with
        ⟨result, writes⟩
      exact ⟨result, doVCompactionWork_eq_ok.mpr
        ⟨filled, reading, read, Or.inr ⟨first, rest, merged, writes⟩⟩⟩

end VersionState

/-- If some input cannot be opened or read to its end, the call fails and no file leaves the
version; and files leave it only when every input was read.  A call that does not return at all
has no status, so it does not count as one that fails. -/
structure VWorkIo.KeepsUnread (io : VWorkIo) (before : VersionState) (files : List ValueFile)
    (outcome : Except String VWorkResult) : Prop where
  fails : ¬ io.Readable files -> ∃ result, outcome = .ok result ∧ result.status = .failed ∧
    result.state.db.current = before.db.current
  reads : ∀ result, outcome = .ok result -> result.state.db.current ≠ before.db.current ->
    ∀ file ∈ files, file.number ∈ result.read

/-- A compaction keeps the inputs that it cannot read exactly when there is none, or the call
comes to its end and fails for another reason: nothing is logged, because the output or, with
nothing to write, the last input could not be opened, or the log itself fails. -/
theorem doVCompactionWork_keepsUnread_iff {config : Config} (ten : config.mod = 10)
    {state : VersionState} (layered : Layered state.db.current.files state.db.tables)
    (filled : state.db.current.vfiles 0 ≠ []) (io : VWorkIo) (vcompaction : VCompaction) :
    io.KeepsUnread state vcompaction.inputs (state.doVCompactionWork config io vcompaction) <->
      io.Readable vcompaction.inputs ∨
      io.Ends state.db.vtables vcompaction.inputs config.blockOptions ∧
        ¬ (io.ReachesLog state.db.vtables vcompaction.inputs ∧ io.log.Returns) := by
  constructor
  · intro keeps
    by_cases readable : io.Readable vcompaction.inputs
    · exact Or.inl readable
    · rcases keeps.fails readable with ⟨result, returns, failed, _⟩
      rcases VersionState.doVCompactionWork_follows returns with ⟨_, _, follows⟩
      refine Or.inr ⟨(VersionState.doVCompactionWork_returns_iff ten layered filled).mp
        ⟨result, returns⟩, fun succeeds => ?_⟩
      exact nomatch failed.symm.trans (follows.ok succeeds)
  · rintro (readable | ⟨ends, stops⟩)
    · refine ⟨fun fails => absurd readable fails, fun result returns _ file member => ?_⟩
      rcases VersionState.doVCompactionWork_follows returns with ⟨_, reads, follows⟩
      rw [follows.read, (VCompaction.readInputs_eq_ok.mp reads).2, VWorkIo.scanned,
        VWorkIo.scannedFrom_of_readable readable]
      exact mem_map_of_mem member
    · rcases (VersionState.doVCompactionWork_returns_iff ten layered filled).mpr ends with
        ⟨result, returns⟩
      rcases VersionState.doVCompactionWork_follows returns with ⟨_, _, follows⟩
      rcases follows.failed stops with ⟨failed, same⟩
      refine ⟨fun _ => ⟨result, returns, failed, same⟩, fun other again changed => ?_⟩
      cases returns.symm.trans again
      exact absurd same changed

/-- Some block of the graph is mapped to the file. -/
def BlockGraph.Mentions (graph : BlockGraph) (newFile : Nat) : Prop :=
  ∃ location entry, graph location = some entry ∧ entry.newFileNumber = newFile

/-- Every mapping of the graph leads to a file number that is in use. -/
def VersionState.Fresh (state : VersionState) : Prop :=
  forall location entry, state.graph location = some entry ->
    entry.newFileNumber < state.db.nextFileNumber

/-- A call leaves the version as it was, with its files and its block graph, and no mapping is
saved that the graph did not have. -/
structure VWorkResult.Unchanged (before : VersionState) (result : VWorkResult) : Prop where
  current : result.state.db.current = before.db.current
  graph : result.state.graph = before.graph
  saved : forall location entry, result.state.savedGraph location = some entry ->
    before.savedGraph location = some entry ∨ before.graph location = some entry

namespace VersionState

theorem deleteInputs_unchanged (stops : ¬ io.log.Returns)
    (returns : state.deleteInputs config io vcompaction reading = .ok result) :
    result.Unchanged state := by
  rcases deleteInputs_eq_ok returns with ⟨_, _, after, rfl⟩ | ⟨_, rfl⟩
  · exact ⟨congrArg Database.current (after.failed stops).2, after.graph, after.saved⟩
  · exact ⟨rfl, rfl, fun _ _ => Or.inl⟩

/-- Once an output is written, the graph of the current version mentions its number,
whether the edit can be logged or not. -/
theorem installOutput_mentions (finished : io.finishOutput = true)
    (merged : reading.merged = first :: rest) {table : BuiltTable KeyValue}
    (built : buildTable (keyValueFormat vkeyLess) config.blockOptions
      (reading.merged.map VEntry.row) = .ok table) {output : VOutput}
    (returns : state.installOutput config io vcompaction reading table.placed output =
      .ok result) :
    result.state.graph.Mentions state.db.nextFileNumber := by
  rcases installOutput_eq_ok returns with ⟨unfinished, _⟩ | ⟨_, graph, logged, added, after, rfl⟩
  · exact nomatch unfinished.symm.trans finished
  · have isFirst : reading.merged[0]? = some first := by rw [merged, getElem?_cons_zero]
    rcases exists_sourceOf (mem_mergedValues.mp (mem_of_getElem? isFirst)).mem with
      ⟨source, _, _, noted⟩
    have member := mem_blockMappings_of_getElem? built isFirst noted
    exact ⟨source.location, _, (congrFun after.graph _).trans
      (BlockGraph.addMappings_maps blockMappings_small added member), rfl⟩

theorem edited_vfiles (ten : config.mod = 10) {level : Nat} (inside : level < 2)
    (edit : VersionEdit InternalKey VKey) :
    (state.db.edited config edit).current.vfiles level =
      editedFiles (fun key => key) level (state.db.current.vfiles level)
        edit.deletedVFiles.files edit.newVFiles := by
  change Builder.savedVFiles config.mod _ _ level = _
  rw [ten]
  exact if_pos ⟨Or.inr rfl, inside⟩

/-- The deletion of the inputs changes the version if it has one of them. -/
theorem edited_deletions_ne (ten : config.mod = 10) {file : ValueFile}
    (isInput : file ∈ vcompaction.vinputs0) (inVersion : file ∈ state.db.current.vfiles 0) :
    (state.db.edited config (vcompaction.deletions VersionEdit.empty)).current ≠
      state.db.current := by
  intro same
  rw [<- same, edited_vfiles ten Nat.zero_lt_two, vcompaction.deletions_eq] at inVersion
  have numbers : FreshNumbers (state.db.current.vfiles 0) (filesAt 0 []) := ⟨nofun, nofun⟩
  rcases numbers.mem_editedFiles.mp inVersion with ⟨_, kept⟩ | added
  · refine kept (DeletedFileSet.mem_insertAll.mpr (Or.inr (mem_append_left _ ?_)))
    exact mem_map.mpr ⟨file, isInput, rfl⟩
  · cases added

/-- Mappings keep leading to numbers that are in use. -/
theorem Fresh.doVCompactionWork (fresh : state.Fresh)
    (returns : state.doVCompactionWork config io vcompaction = .ok result) :
    result.state.Fresh := by
  have old (location : BlockLocation) (entry : MappingEntry)
      (here : state.graph location = some entry) :
      entry.newFileNumber < state.db.nextFileNumber + 1 :=
    Nat.lt_succ_of_lt (fresh location entry here)
  rcases (doVCompactionWork_eq_ok.mp returns).2 with
    ⟨_, _, ⟨_, deletes⟩ | ⟨first, rest, merged, writes⟩⟩
  · rcases deleteInputs_eq_ok deletes with ⟨_, _, after, rfl⟩ | ⟨_, rfl⟩
    · intro location entry here
      exact lt_of_lt_of_eq (fresh location entry ((congrFun after.graph _).symm.trans here))
        after.keeps.1.symm
    · exact fresh
  · rcases writeMerged_eq_ok merged writes with ⟨_, rfl⟩ | ⟨_, _, _, installs⟩
    · exact old
    rcases installOutput_eq_ok installs with ⟨_, rfl⟩ | ⟨_, graph, _, added, after, rfl⟩
    · exact old
    · intro location entry here
      refine lt_of_lt_of_eq ?_ after.keeps.1.symm
      rcases BlockGraph.addMappings_eq_some added ((congrFun after.graph _).symm.trans here) with
        known | isNew
      · exact old location entry known
      · exact isNew ▸ Nat.lt_succ_self _

end VersionState

/-- A call that comes to the log leaves the version as it was exactly if no entry was left to
write and the log fails.  When an entry was left, the graph has new mappings whatever happens to
the log; and a save that is lost unnoticed does not count as a failure. -/
theorem doVCompactionWork_unchanged_iff {config : Config} (ten : config.mod = 10)
    {state : VersionState} (layered : Layered state.db.current.files state.db.tables)
    (fresh : state.Fresh) (io : VWorkIo) (vcompaction : VCompaction) {file : ValueFile}
    (isInput : file ∈ vcompaction.vinputs0) (inVersion : file ∈ state.db.current.vfiles 0)
    (ends : io.Ends state.db.vtables vcompaction.inputs config.blockOptions)
    (reaches : io.ReachesLog state.db.vtables vcompaction.inputs) :
    ∃ result, state.doVCompactionWork config io vcompaction = .ok result ∧
      (result.Unchanged state <->
        ¬ io.SomeSurvives state.db.vtables vcompaction.inputs ∧ ¬ io.log.Returns) := by
  rcases (VersionState.doVCompactionWork_returns_iff ten layered (ne_nil_of_mem inVersion)).mpr
    ends with ⟨result, returns⟩
  refine ⟨result, returns, ?_⟩
  rcases VersionState.doVCompactionWork_eq_ok.mp returns with ⟨_, _, reads, finish⟩
  rcases VCompaction.readInputs_eq_ok.mp reads with ⟨completes, rfl⟩
  rcases finish with ⟨merged, deletes⟩ | ⟨_, _, merged, writes⟩
  · have nothing : ¬ io.SomeSurvives state.db.vtables vcompaction.inputs :=
      fun some => VWorkIo.someSurvives_iff.mp some merged
    refine ⟨fun unchanged => ⟨nothing, fun noticed => ?_⟩,
      fun stops => VersionState.deleteInputs_unchanged stops.2 deletes⟩
    have fine : vcompaction.inputs.foldl io.statusAfter .ok = .ok := by
      refine IoStatus.ne_failed.mp (fun failed => ?_)
      rcases reaches with ⟨some, _⟩ | ⟨_, opens⟩
      · exact nothing some
      · exact opens ((VWorkIo.foldl_statusAfter completes.opened).mp failed)
    rcases VersionState.deleteInputs_eq_ok deletes with ⟨_, _, after, rfl⟩ | ⟨bad, _⟩
    · exact VersionState.edited_deletions_ne ten isInput inVersion
        ((congrArg Database.current (after.ok noticed).2).symm.trans unchanged.current)
    · exact nomatch bad.symm.trans fine
  · have some : io.SomeSurvives state.db.vtables vcompaction.inputs :=
      VWorkIo.someSurvives_iff.mpr (fun none => nomatch merged.symm.trans none)
    refine ⟨fun unchanged => ?_, fun nothing => absurd some nothing.1⟩
    rcases reaches with ⟨_, opened, finished⟩ | ⟨nothing, _⟩
    · rcases VersionState.writeMerged_eq_ok merged writes with
        ⟨unopened, _⟩ | ⟨_, _, built, installs⟩
      · exact nomatch unopened.symm.trans opened
      rcases VersionState.installOutput_mentions finished merged built installs with
        ⟨location, entry, here, isNew⟩
      rw [unchanged.graph] at here
      exact absurd isNew (ne_of_lt (fresh location entry here))
    · exact absurd some nothing

end

/-! ## Two value files -/

section Bytewise

open Bytewise

/-- A value of one byte for a key of one byte. -/
def oneValue (key : UInt8) (sequence : Nat) : VEntry :=
  ⟨⟨[key], BitVec.ofNat 64 (sequence * 256 + 1), 0⟩, [key]⟩

def oneValueFile (number : Nat) (entry : VEntry) : ValueFile :=
  ⟨number, 1, entry.vkey, entry.vkey⟩

/-- A version with the value files 5 and 6 at level zero. -/
def twoValueFiles : VersionState where
  db := { Database.new with
    current := ⟨fun _ => [], fun level =>
      if level = 0 then [oneValueFile 5 (oneValue 97 1), oneValueFile 6 (oneValue 98 2)] else [],
      .empty⟩
    vtables := fun number =>
      if number = 5 then [⟨[(oneValue 97 1).row], [⟨0, 0⟩]⟩]
      else if number = 6 then [⟨[(oneValue 98 2).row], [⟨0, 0⟩]⟩] else []
    nextFileNumber := 7 }
  graph := fun _ => none
  savedGraph := fun _ => none
  bgError := false

def bothValueFiles : VCompaction := ⟨twoValueFiles.db.current.vfiles 0, []⟩

/-- All operations succeed, but for the second input and the log. -/
def secondInputIo (second : InputIo) (log : LogIo) : VWorkIo :=
  ⟨fun number => if number = 6 then second else .opens, fun _ => false, false, true, true, log⟩

theorem readable_secondInputIo (log : LogIo) (files : List ValueFile) :
    (secondInputIo .opens log).Readable files :=
  fun _ _ => ⟨Or.inr (ite_self _), rfl⟩

/-- The second input cannot be opened, and the compaction succeeds without it. -/
theorem doVCompactionWork_forgets_input :
    (twoValueFiles.doVCompactionWork (Config.plain 10 (by decide))
        (secondInputIo .openFails .succeeds) bothValueFiles).toOption.map (fun result =>
      (result.status, result.read, (result.state.db.current.vfiles 0).map FileMetaData.number)) =
      some (.ok, [5], [7]) := by
  decide +kernel

/-- The second input and the output cannot be opened, and the call fails as it should. -/
theorem doVCompactionWork_keepsUnread_twoValueFiles :
    VWorkIo.KeepsUnread { secondInputIo .openFails .succeeds with openOutput := false }
      twoValueFiles bothValueFiles.inputs (twoValueFiles.doVCompactionWork
        (Config.plain 10 (by decide))
        { secondInputIo .openFails .succeeds with openOutput := false } bothValueFiles) := by
  refine (doVCompactionWork_keepsUnread_iff rfl (layered_empty _) (by decide) _ _).mpr
    (Or.inr ⟨⟨⟨nofun, by decide, ?_⟩, fun _ => nofun⟩, ?_⟩)
  · decide +kernel
  · rintro ⟨⟨_, opened, _⟩ | ⟨_, opens⟩, _⟩
    · cases opened
    · exact opens ⟨oneValueFile 6 (oneValue 98 2), rfl, rfl⟩

/-- The manifest cannot be written, and the graph mentions file 7 all the same. -/
theorem doVCompactionWork_leaves_mapping :
    (twoValueFiles.doVCompactionWork (Config.plain 10 (by decide))
        (secondInputIo .opens .manifestFails) bothValueFiles).toOption.map (fun result =>
      (result.status, (result.state.db.current.vfiles 0).map FileMetaData.number,
        result.state.graph ⟨5, 0⟩)) =
      some (.failed, [5, 6], some ⟨7, ⟨0, 0⟩, 1⟩) := by
  decide +kernel

/-- The value files 5 and 6 with deletions in place of their values. -/
def twoDeletions : VersionState :=
  { twoValueFiles with db := { twoValueFiles.db with
    vtables := fun number =>
      if number = 5 then [⟨[(⟨⟨[97], 256, 0⟩, []⟩ : VEntry).row], [⟨0, 0⟩]⟩]
      else if number = 6 then [⟨[(⟨⟨[98], 512, 0⟩, []⟩ : VEntry).row], [⟨0, 0⟩]⟩] else [] } }

/-- There is nothing to write, the manifest cannot be written, and the version stays. -/
theorem doVCompactionWork_unchanged_twoDeletions :
    ∃ result, twoDeletions.doVCompactionWork (Config.plain 10 (by decide))
        (secondInputIo .opens .manifestFails) bothValueFiles = .ok result ∧
      result.Unchanged twoDeletions := by
  have nothing : ¬ (secondInputIo .opens .manifestFails).SomeSurvives twoDeletions.db.vtables
      bothValueFiles.inputs := by
    rw [VWorkIo.someSurvives_iff, not_not]
    decide +kernel
  have fresh : twoDeletions.Fresh := fun _ _ => nofun
  rcases doVCompactionWork_unchanged_iff (rfl : (Config.plain 10 (by decide)).mod = 10)
    (layered_empty _) fresh _ bothValueFiles mem_cons_self mem_cons_self
    ⟨(readable_secondInputIo _ _).completes (by decide +kernel),
      fun some => absurd some nothing⟩
    (Or.inr ⟨nothing, by decide⟩) with ⟨result, returns, unchanged⟩
  exact ⟨result, returns, unchanged.mpr ⟨nothing, fun returns => nomatch returns.1⟩⟩

end Bytewise

end Db
end Doux
