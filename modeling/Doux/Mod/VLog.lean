import Doux.Foundation.Control
import Doux.Util.Coding

namespace Doux
namespace Mod

open Foundation Util List

/-!
# The value log

`VLog` appends records to a file and answers each with the address of its value.  New
records stay in a buffer, which goes to the file as a whole when it is large enough.
An address counts from the start of the file, and a read first decides by the size of
the file whether the value is still in the buffer.

The log is closed and opened again on the same file.  Whether the file keeps its bytes
then depends on its name: only names with `vlog` in them are opened for appending.
-/

/-- `PosixWritableFile`: the bytes in the file, and those in its buffer. -/
structure WritableFile where
  written : Bytes
  buf : Bytes

def kWritableFileBufferSize : Nat := 65536

namespace WritableFile

def contents (file : WritableFile) : Bytes := file.written ++ file.buf

/-- `FlushBuffer`, which `Flush`, `Sync` and `Close` call. -/
def flush (file : WritableFile) : WritableFile := ⟨file.written ++ file.buf, []⟩

/-- `PosixWritableFile::Append`. -/
def append (file : WritableFile) (data : Bytes) : WritableFile :=
  let copySize := min data.length (kWritableFileBufferSize - file.buf.length)
  let buf := file.buf ++ data.take copySize
  let rest := data.drop copySize
  if rest = [] then ⟨file.written, buf⟩
  else if rest.length < kWritableFileBufferSize then ⟨file.written ++ buf, rest⟩
  else ⟨file.written ++ buf ++ rest, []⟩

theorem contents_append (file : WritableFile) (data : Bytes) :
    (file.append data).contents = file.contents ++ data := by
  have parts := take_append_drop (min data.length (kWritableFileBufferSize - file.buf.length)) data
  unfold append
  dsimp only
  split
  next none =>
    rw [none, append_nil] at parts
    rw [parts]
    exact (append_assoc _ _ _).symm
  next some =>
    have whole : file.written ++ (file.buf ++
        data.take (min data.length (kWritableFileBufferSize - file.buf.length))) ++
        data.drop (min data.length (kWritableFileBufferSize - file.buf.length)) =
        file.contents ++ data := by
      rw [append_assoc, append_assoc, parts, <- append_assoc]
      rfl
    split
    · exact whole
    · exact (append_nil _).trans whole

end WritableFile

/-- The bytes with which `PosixEnv::NewWritableFile` opens a file: names with `vlog` in
them are opened for appending, other files are emptied. -/
def newWritableFile (filename : List Char) (existing : Bytes) : WritableFile :=
  if ['v', 'l', 'o', 'g'] <:+: filename then ⟨existing, []⟩ else ⟨[], []⟩

def bufferSizeMax : Nat := 300 * 1024

/-- `adgMod::VLog`.  `scratch` is the memory into which values are read. -/
structure VLog where
  writer : WritableFile
  buffer : Bytes
  vlogSize : Nat
  scratch : Bytes

/-- What does not change while the log lives: its name and `adgMod::value_size`. -/
structure VLogConfig where
  vlogName : List Char
  valueSize : Nat

namespace VLog

/-- The constructor, on a file with the given bytes.  `memory` is what the new scratch
space happens to hold. -/
def new (config : VLogConfig) (memory : Nat -> UInt8) (existing : Bytes) : VLog :=
  let writer := newWritableFile config.vlogName existing
  ⟨writer, [], writer.written.length, (List.range (config.valueSize * 2)).map memory⟩

def flush (log : VLog) : VLog :=
  if log.buffer = [] then log
  else { log with
    writer := (log.writer.append log.buffer).flush
    vlogSize := log.vlogSize + log.buffer.length
    buffer := [] }

def sync (log : VLog) : VLog := { log.flush with writer := log.flush.writer.flush }

/-- A record that was added: where it starts, the address of its value, and the value. -/
structure Record where
  start : Nat
  address : Nat
  value : Bytes
deriving DecidableEq

/-- The common part of `AddRecord` and `AddRecord2`, which differ in the bytes before
the value. -/
def addWithHeader (log : VLog) (header value : Bytes) : VLog × Record :=
  let buffer := log.buffer ++ header
  let record := ⟨log.vlogSize + log.buffer.length, log.vlogSize + buffer.length, value⟩
  let log := { log with buffer := buffer ++ value }
  (if log.buffer.length ≥ bufferSizeMax then log.flush else log, record)

/-- `VLog::AddRecord`. -/
def addRecord (log : VLog) (key value : Bytes) : VLog × Record :=
  log.addWithHeader (putLengthPrefixedSlice key ++ encodeVarint32 (value.length % 2 ^ 32)) value

/-- `VLog::AddRecord2`. -/
def addRecord2 (log : VLog) (key value : Bytes) : VLog × Record :=
  log.addWithHeader (encodeFixed32 key.length ++ key ++ encodeFixed32 value.length) value

/-- The bytes that `RandomAccessFile::Read` puts into the scratch space. -/
def pread (log : VLog) (address size : Nat) : Except String Bytes := do
  assertThat (size ≤ log.scratch.length) "scratch"
  return (log.writer.written.drop address).take size

/-- `VLog::ReadRecord`.  Reading past the end of the buffer, or more than the scratch
space holds, is an error. -/
def readRecord (log : VLog) (address size : Nat) : Except String Bytes :=
  if address ≥ log.vlogSize then do
    assertThat (address - log.vlogSize + size ≤ log.buffer.length) "buffer"
    return (log.buffer.drop (address - log.vlogSize)).take size
  else log.pread address size

/-- A slice that `ReadRecord2` returns.  It does not own its bytes: it points to the
scratch space, or to a string that no longer exists. -/
inductive Slice where
  | scratch (size : Nat)
  | dangling (size : Nat)

/-- `VLog::ReadRecord2`.  What is read from the file replaces what the scratch space held
before. -/
def readRecord2 (log : VLog) (address size : Nat) : Except String (Slice × VLog) :=
  if address ≥ log.vlogSize then do
    assertThat (address - log.vlogSize + size ≤ log.buffer.length) "buffer"
    return (.dangling size, log)
  else do
    let value <- log.pread address size
    return (.scratch value.length, { log with scratch := value ++ log.scratch.drop value.length })

/-- The bytes to which a slice points now. -/
def sliceBytes (log : VLog) : Slice -> Except String Bytes
  | .scratch size => .ok (log.scratch.take size)
  | .dangling 0 => .ok []
  | .dangling _ => .error "destroyed string"

/-- `VLog::Reset`.  It clears the buffer, empties the file, and clears as many bytes of
the scratch space as a pointer has. -/
def reset (log : VLog) : VLog :=
  ⟨⟨[], []⟩, [], 0, List.replicate (min 8 log.scratch.length) 0 ++ log.scratch.drop 8⟩

/-- The destructor: what it leaves in the file. -/
def close (log : VLog) : Bytes := log.flush.writer.flush.written

end VLog

inductive VLogOperation where
  | addRecord (key value : Bytes)
  | addRecord2 (key value : Bytes)
  | flush
  | sync
  /-- Close the log and open it again; `memory` is the new scratch space. -/
  | reopen (memory : Nat -> UInt8)

/-- A log with the records that were added to it. -/
structure VLogRun where
  log : VLog
  issued : List VLog.Record

namespace VLogRun

/-- A run goes on with a log and perhaps one more record. -/
def note (run : VLogRun) (added : VLog × VLog.Record) : VLogRun :=
  ⟨added.1, run.issued ++ [added.2]⟩

def step (config : VLogConfig) (run : VLogRun) : VLogOperation -> VLogRun
  | .addRecord key value => run.note (run.log.addRecord key value)
  | .addRecord2 key value => run.note (run.log.addRecord2 key value)
  | .flush => { run with log := run.log.flush }
  | .sync => { run with log := run.log.sync }
  | .reopen memory => { run with log := VLog.new config memory run.log.close }

/-- A run from the opening of a file with the given bytes. -/
def run (config : VLogConfig) (memory : Nat -> UInt8) (existing : Bytes)
    (operations : List VLogOperation) : VLogRun :=
  operations.foldl (step config) ⟨VLog.new config memory existing, []⟩

end VLogRun

namespace VLog

/-- All bytes of the log, in the file or in the buffer. -/
def contents (log : VLog) : Bytes := log.writer.contents ++ log.buffer

/-- The writer has nothing in its own buffer, and `vlogSize` is the size of the file. -/
structure Tidy (config : VLogConfig) (log : VLog) : Prop where
  flushed : log.writer.buf = []
  size : log.vlogSize = log.writer.written.length
  scratch : log.scratch.length = config.valueSize * 2

/-- The bytes of a record's value are at its address, and all of them are on one side
of the end of the file. -/
structure Record.In (record : Record) (log : VLog) : Prop where
  value : (log.contents.drop record.address).take record.value.length = record.value
  inside : record.address + record.value.length ≤ log.contents.length
  side : record.address + record.value.length ≤ log.vlogSize ∨ log.vlogSize ≤ record.address

variable {config : VLogConfig} {log : VLog}

theorem Tidy.contents_eq (tidy : log.Tidy config) :
    log.contents = log.writer.written ++ log.buffer := by
  unfold contents WritableFile.contents
  rw [tidy.flushed, append_nil]

theorem Tidy.new (config : VLogConfig) (memory : Nat -> UInt8) (existing : Bytes) :
    (VLog.new config memory existing).Tidy config where
  flushed := by
    unfold VLog.new newWritableFile
    split <;> rfl
  size := rfl
  scratch := by
    unfold VLog.new
    rw [length_map, length_range]

theorem Tidy.flush (tidy : log.Tidy config) : log.flush.Tidy config := by
  unfold VLog.flush
  split
  · exact tidy
  · refine ⟨rfl, ?_, tidy.scratch⟩
    change _ = (WritableFile.contents _).length
    rw [WritableFile.contents_append, length_append, WritableFile.contents, tidy.flushed, append_nil,
      <- tidy.size]

theorem contents_flush (log : VLog) : log.flush.contents = log.contents := by
  unfold VLog.flush
  split
  · rfl
  · change (log.writer.append log.buffer).flush.contents ++ [] = _
    rw [append_nil]
    exact (append_nil _).trans (WritableFile.contents_append _ _)

theorem buffer_flush (log : VLog) : log.flush.buffer = [] := by
  unfold flush
  split
  next empty => exact empty
  next => rfl

theorem Tidy.flush_vlogSize (tidy : log.Tidy config) :
    log.flush.vlogSize = log.contents.length := by
  rw [tidy.flush.size, <- contents_flush, tidy.flush.contents_eq, buffer_flush, append_nil]

/-- Flushing an already flushed writer changes nothing. -/
theorem Tidy.sync_eq (tidy : log.Tidy config) : log.sync = log.flush := by
  have same : log.flush.writer.flush = log.flush.writer := by
    unfold WritableFile.flush
    rw [tidy.flush.flushed, append_nil, <- tidy.flush.flushed]
  unfold VLog.sync
  rw [same]

theorem Tidy.close_eq (tidy : log.Tidy config) : log.close = log.contents := by
  rw [<- contents_flush, tidy.flush.contents_eq, buffer_flush, close,
    WritableFile.flush, tidy.flush.flushed, append_nil]

variable {record : Record}

theorem Record.In.flush (here : record.In log) (tidy : log.Tidy config) : record.In log.flush where
  value := by rw [contents_flush]; exact here.value
  inside := by rw [contents_flush]; exact here.inside
  side := Or.inl (by rw [tidy.flush_vlogSize]; exact here.inside)

theorem Record.In.reopen (here : record.In log) (tidy : log.Tidy config)
    (appends : ['v', 'l', 'o', 'g'] <:+: config.vlogName) (memory : Nat -> UInt8) :
    record.In (new config memory log.close) := by
  have kept : (new config memory log.close).contents = log.contents := by
    rw [(Tidy.new config memory log.close).contents_eq, <- tidy.close_eq]
    unfold new newWritableFile
    rw [if_pos appends]
    exact append_nil _
  refine ⟨kept ▸ here.value, kept ▸ here.inside, Or.inl ?_⟩
  have size : (new config memory log.close).vlogSize = log.contents.length := by
    unfold new newWritableFile
    rw [if_pos appends, tidy.close_eq]
  rw [size]
  exact here.inside

theorem addWithHeader_eq (log : VLog) (header value : Bytes) : log.addWithHeader header value =
      (if (log.buffer ++ header ++ value).length ≥ bufferSizeMax then
          { log with buffer := log.buffer ++ header ++ value }.flush
        else { log with buffer := log.buffer ++ header ++ value },
        ⟨log.vlogSize + log.buffer.length, log.vlogSize + (log.buffer ++ header).length, value⟩) :=
  rfl

section Append
variable (tidy : log.Tidy config) (header value : Bytes)
include tidy

theorem Tidy.append : Tidy config { log with buffer := log.buffer ++ header ++ value } :=
  ⟨tidy.flushed, tidy.size, tidy.scratch⟩

theorem Tidy.contents_append : contents { log with buffer := log.buffer ++ header ++ value } =
      log.contents ++ (header ++ value) := by
  rw [(tidy.append header value).contents_eq, tidy.contents_eq, append_assoc, append_assoc]

theorem Tidy.addWithHeader : (log.addWithHeader header value).1.Tidy config := by
  rw [addWithHeader_eq]
  split
  · exact (tidy.append header value).flush
  · exact tidy.append header value

theorem Tidy.start_addWithHeader :
    (log.addWithHeader header value).2.start = log.contents.length := by
  change log.vlogSize + log.buffer.length = _
  rw [tidy.contents_eq, length_append, tidy.size]

theorem Record.In.append (here : record.In log) :
    record.In { log with buffer := log.buffer ++ header ++ value } := by
  have grown := tidy.contents_append header value
  have inside := here.inside
  refine ⟨?_, ?_, here.side⟩
  · rw [grown, drop_append_of_le_length (by omega), take_append_of_le_length, here.value]
    rw [length_drop]
    omega
  · rw [grown, length_append]
    exact le_trans inside (Nat.le_add_right _ _)

theorem Record.In.addWithHeader (here : record.In log) :
    record.In (log.addWithHeader header value).1 := by
  have appended := here.append tidy header value
  rw [addWithHeader_eq]
  split
  · exact appended.flush (tidy.append header value)
  · exact appended

/-- The value of a new record is at its address. -/
theorem Tidy.in_addWithHeader :
    (log.addWithHeader header value).2.In (log.addWithHeader header value).1 := by
  have base : log.vlogSize + (log.buffer ++ header).length = (log.contents ++ header).length := by
    rw [tidy.contents_eq, tidy.size, append_assoc, <- length_append]
  have here : Record.In ⟨log.vlogSize + log.buffer.length,
      log.vlogSize + (log.buffer ++ header).length, value⟩
        { log with buffer := log.buffer ++ header ++ value } := by
    refine ⟨?_, ?_, Or.inr (Nat.le_add_right _ _)⟩
    · rw [tidy.contents_append, <- append_assoc, base, drop_left, take_length]
    · rw [tidy.contents_append, <- append_assoc, base]
      exact le_of_eq length_append.symm
  rw [addWithHeader_eq]
  split
  · exact here.flush (tidy.append header value)
  · exact here

end Append

theorem Record.In.read (here : record.In log) (tidy : log.Tidy config)
    (small : record.value.length ≤ 2 * config.valueSize) :
    log.readRecord record.address record.value.length = .ok record.value := by
  have value := here.value
  have inside := here.inside
  rw [tidy.contents_eq] at value inside
  have size := tidy.size
  unfold readRecord
  split
  next buffered =>
    rw [length_append] at inside
    rw [assertThat_of (by omega)]
    rw [drop_append, drop_eq_nil_of_le (by omega), <- size] at value
    exact congrArg Except.ok value
  next inFile =>
    have side := here.side
    have fits : record.value.length ≤ log.scratch.length := by rw [tidy.scratch]; omega
    unfold pread
    rw [assertThat_of fits]
    rw [drop_append_of_le_length (by omega), take_append_of_le_length] at value
    · exact congrArg Except.ok value
    · rw [length_drop]
      omega

end VLog

/-! ## Whole runs -/

namespace VLogRun

/-- Every record that was added is in the log, and they lie one behind the other. -/
structure Valid (config : VLogConfig) (run : VLogRun) : Prop where
  tidy : run.log.Tidy config
  kept : ∀ record ∈ run.issued, record.In run.log
  apart : run.issued.Pairwise (fun first second =>
    first.address + first.value.length ≤ second.start)
  ordered : ∀ record ∈ run.issued, record.start ≤ record.address

variable {config : VLogConfig} {run : VLogRun}

theorem Valid.note (valid : run.Valid config) (header value : Bytes) :
    (run.note (run.log.addWithHeader header value)).Valid config where
  tidy := valid.tidy.addWithHeader header value
  kept := forall_mem_concat.mpr
    ⟨fun record old => (valid.kept record old).addWithHeader valid.tidy header value,
      valid.tidy.in_addWithHeader header value⟩
  apart := by
    refine pairwise_concat.mpr ⟨valid.apart, fun first old => ?_⟩
    rw [valid.tidy.start_addWithHeader]
    exact (valid.kept first old).inside
  ordered := forall_mem_concat.mpr ⟨valid.ordered,
    Nat.add_le_add_left (by rw [length_append]; exact Nat.le_add_right _ _) _⟩

theorem Valid.flush (valid : run.Valid config) : Valid config { run with log := run.log.flush } :=
  ⟨valid.tidy.flush, fun record member => (valid.kept record member).flush valid.tidy,
    valid.apart, valid.ordered⟩

theorem Valid.step (appends : ['v', 'l', 'o', 'g'] <:+: config.vlogName)
    (valid : run.Valid config) (operation : VLogOperation) :
    (run.step config operation).Valid config := by
  cases operation with
  | addRecord key value => exact valid.note _ value
  | addRecord2 key value => exact valid.note _ value
  | flush => exact valid.flush
  | sync =>
    unfold VLogRun.step
    rw [valid.tidy.sync_eq]
    exact valid.flush
  | reopen memory =>
    refine ⟨VLog.Tidy.new config memory _, fun record member => ?_, valid.apart, valid.ordered⟩
    exact (valid.kept record member).reopen valid.tidy appends memory

theorem Valid.foldl (appends : ['v', 'l', 'o', 'g'] <:+: config.vlogName)
    (operations : List VLogOperation) {run : VLogRun} (valid : run.Valid config) :
    (operations.foldl (VLogRun.step config) run).Valid config :=
  foldlRecOn operations _ valid (fun _ valid operation _ => valid.step appends operation)

theorem Valid.start (config : VLogConfig) (memory : Nat -> UInt8) (existing : Bytes) :
    Valid config ⟨VLog.new config memory existing, []⟩ :=
  ⟨VLog.Tidy.new config memory existing, forall_mem_nil _, Pairwise.nil, forall_mem_nil _⟩

end VLogRun

/-- After any operations on a log that is opened for appending, every address that was
returned gives its value back, from the buffer or from the file, and the records lie
one behind the other. -/
theorem vlog_addresses_stay_valid (config : VLogConfig)
    (appends : ['v', 'l', 'o', 'g'] <:+: config.vlogName) (memory : Nat -> UInt8)
    (existing : Bytes) (operations : List VLogOperation) :
    (∀ record ∈ (VLogRun.run config memory existing operations).issued,
      record.value.length ≤ 2 * config.valueSize ->
        (VLogRun.run config memory existing operations).log.readRecord record.address
          record.value.length = .ok record.value) ∧
    (VLogRun.run config memory existing operations).issued.Pairwise (fun first second =>
      first.start ≤ first.address ∧ first.address + first.value.length ≤ second.start) := by
  have valid : (VLogRun.run config memory existing operations).Valid config :=
    (VLogRun.Valid.start config memory existing).foldl appends operations
  refine ⟨fun record member small => (valid.kept record member).read valid.tidy small, ?_⟩
  refine valid.apart.imp_of_mem (fun first _ apart => ⟨?_, apart⟩)
  exact valid.ordered _ first

/-- A log with a record in the file and one in the buffer. -/
theorem vlog_addresses_two_records : (VLogRun.run ⟨"vlog.txt".toList, 4⟩ (fun _ => 0) []
        [.addRecord [107] [1, 2], .reopen (fun _ => 0), .addRecord2 [108] [3]]).issued =
      [⟨0, 3, [1, 2]⟩, ⟨5, 14, [3]⟩] ∧
    (∀ record ∈ (VLogRun.run ⟨"vlog.txt".toList, 4⟩ (fun _ => 0) []
        [.addRecord [107] [1, 2], .reopen (fun _ => 0), .addRecord2 [108] [3]]).issued,
      record.value.length ≤ 2 * 4 -> (VLogRun.run ⟨"vlog.txt".toList, 4⟩ (fun _ => 0) []
            [.addRecord [107] [1, 2], .reopen (fun _ => 0), .addRecord2 [108] [3]]).log.readRecord
          record.address record.value.length = .ok record.value) :=
  ⟨by decide +kernel,
    (vlog_addresses_stay_valid ⟨"vlog.txt".toList, 4⟩ (by decide +kernel) (fun _ => 0) [] _).1⟩

end Mod
end Doux
