import Doux.Log.Writer

namespace Doux
namespace Log

open Foundation Util List

/-!
# Reading a log

`db/log_reader.cc` reads the file block by block into a buffer, takes physical
records off it and joins their fragments.  The reader below has checksums
switched on and starts at offset zero, as the recovery code uses it; the
offsets that only matter for another starting point are left out.

At the end of the file a truncated header or payload is not an error.  This is
what makes the log robust: after a cut at any place the reader still returns
the records that were written completely, and reports nothing.  The invariant
`ReaderAt` relates the buffer to a position in the log: the buffer is the rest
of a whole block, or, once the end of the file has been seen, less than that.
-/

/-- The unread file, the buffer and the corruptions reported so far. -/
structure Reader where
  file : Bytes
  buffer : Bytes
  eof : Bool
  reports : List (Nat × String)
deriving DecidableEq

def kEof : Nat := 5

def kBadRecord : Nat := 6

/-- `Reader::ReportCorruption`; with initial offset zero every drop is reported. -/
def reportCorruption (reader : Reader) (bytes : Nat) (reason : String) : Reader :=
  { reader with reports := reader.reports ++ [(bytes, reason)] }

/-- A signed character widened to an unsigned number. -/
def charToUnsigned (byte : UInt8) : Nat :=
  if byte.toNat < 128 then byte.toNat else 2 ^ 32 - 256 + byte.toNat

/-- Read the next block of the file. -/
def readBlock (reader : Reader) : Reader :=
  { reader with
    file := reader.file.drop kBlockSize
    buffer := reader.file.take kBlockSize
    eof := decide ((reader.file.take kBlockSize).length < kBlockSize) }

section
variable (value : Bytes -> BitVec 32)

/-- The part of `ReadPhysicalRecord` that parses a buffer with a whole header. -/
def parsePhysicalRecord (reader : Reader) : Reader × Nat × Bytes :=
  let header := reader.buffer
  let a := (header.getD 4 0).toNat
  let b := (header.getD 5 0).toNat
  let type := charToUnsigned (header.getD 6 0)
  let length := a + 256 * b
  if kHeaderSize + length > reader.buffer.length then
    let dropSize := reader.buffer.length
    let reader := { reader with buffer := [] }
    if reader.eof then
      (reader, kEof, [])
    else
      (reportCorruption reader dropSize "bad record length", kBadRecord, [])
  else if type = 0 ∧ length = 0 then
    ({ reader with buffer := [] }, kBadRecord, [])
  else
    let expectedCrc := unmask (BitVec.ofNat 32 (decodeFixed32 header))
    let actualCrc := value ((header.drop 6).take (1 + length))
    if actualCrc ≠ expectedCrc then
      let dropSize := reader.buffer.length
      (reportCorruption { reader with buffer := [] } dropSize "checksum mismatch", kBadRecord, [])
    else
      ({ reader with buffer := reader.buffer.drop (kHeaderSize + length) }, type,
        (header.drop kHeaderSize).take length)

/-- `Reader::ReadPhysicalRecord`.  Its loop goes round at most once: a read
that leaves less than a header in the buffer has also set `eof_`. -/
def readPhysicalRecord (reader : Reader) : Reader × Nat × Bytes :=
  let reader :=
    if reader.buffer.length < kHeaderSize ∧ reader.eof = false then readBlock reader else reader
  if reader.buffer.length < kHeaderSize then
    ({ reader with buffer := [] }, kEof, [])
  else
    parsePhysicalRecord value reader

/-- The variables of the loop in `ReadRecord`. -/
structure ReadRecordState where
  reader : Reader
  inFragmentedRecord : Bool
  scratch : Bytes

/-- The report when a new record starts inside a fragmented one. -/
def reportPartial (state : ReadRecordState) (reader : Reader) (reason : String) : Reader :=
  if state.inFragmentedRecord ∧ state.scratch ≠ [] then
    reportCorruption reader state.scratch.length reason
  else
    reader

def readRecordBody (state : ReadRecordState) : LoopStep ReadRecordState (Reader × Option Bytes) :=
  let (reader, recordType, fragment) := readPhysicalRecord value state.reader
  if recordType = 1 then
    .done (reportPartial state reader "partial record without end(1)", some fragment)
  else if recordType = 2 then
    .again ⟨reportPartial state reader "partial record without end(2)", true, fragment⟩
  else if recordType = 3 then
    if state.inFragmentedRecord then
      .again ⟨reader, true, state.scratch ++ fragment⟩
    else
      .again ⟨reportCorruption reader fragment.length "missing start of fragmented record(1)",
        false, state.scratch⟩
  else if recordType = 4 then
    if state.inFragmentedRecord then
      .done (reader, some (state.scratch ++ fragment))
    else
      .again ⟨reportCorruption reader fragment.length "missing start of fragmented record(2)",
        false, state.scratch⟩
  else if recordType = kEof then
    .done (reader, none)
  else if recordType = kBadRecord then
    if state.inFragmentedRecord then
      .again ⟨reportCorruption reader state.scratch.length "error in middle of record", false, []⟩
    else
      .again ⟨reader, false, state.scratch⟩
  else
    .again ⟨reportCorruption reader
      (fragment.length + if state.inFragmentedRecord then state.scratch.length else 0)
      s!"unknown record type {recordType}", false, []⟩

/-- `Reader::ReadRecord`: a record, or the end of the log.  Every pass takes
bytes off the buffer or ends the loop. -/
def readRecord (reader : Reader) : Option (Reader × Option Bytes) :=
  runLoop (readRecordBody value) (reader.buffer.length + reader.file.length + 1) ⟨reader, false, []⟩

/-- Call `ReadRecord` until it finds no further record. -/
def readRecordsBody (state : Reader × List Bytes) :
    LoopStep (Reader × List Bytes) (Option (List Bytes × List (Nat × String))) :=
  match readRecord value state.1 with
  | none => .done none
  | some (reader, none) => .done (some (state.2, reader.reports))
  | some (reader, some record) => .again (reader, state.2 ++ [record])

/-- The records of a log file and the corruptions that were reported. -/
def readLog (file : Bytes) : Option (List Bytes × List (Nat × String)) :=
  (runLoop (readRecordsBody value) (file.length + 1) (⟨file, [], false, []⟩, [])).join

end

section
variable (value : Bytes -> BitVec 32) {σ ε : Type} (report : Nat × String -> ε)
  (visit : σ -> Bytes -> Except ε σ)

/-- One record of the loop in which a log is replayed.  The loop stops when a
corruption was reported or the record could not be used. -/
def visitBody (state : Reader × σ) : LoopStep (Reader × σ) (Option (Except ε σ)) :=
  match readRecord value state.1 with
  | none => .done none
  | some (reader, record) =>
    match reader.reports, record with
    | corruption :: _, _ => .done (some (.error (report corruption)))
    | [], none => .done (some (.ok state.2))
    | [], some record =>
      match visit state.2 record with
      | .error failure => .done (some (.error failure))
      | .ok next => .again (reader, next)

/-- Replay a log file: `while (reader.ReadRecord(...) && s.ok())`. -/
def visitLog (file : Bytes) (start : σ) : Option (Except ε σ) :=
  (runLoop (visitBody value report visit) (file.length + 1) (⟨file, [], false, []⟩, start)).join

theorem visitLog_preserves (Holds : σ -> Prop)
    (keeps : ∀ state record next, Holds state -> visit state record = .ok next -> Holds next)
    {file : Bytes} {start finish : σ} (holds : Holds start)
    (run : visitLog value report visit file start = some (.ok finish)) : Holds finish := by
  rcases Option.join_eq_some_iff.mp run with looped
  have kept (state next : Reader × σ) (before : Holds state.2)
      (pass : visitBody value report visit state = .again next) : Holds next.2 := by
    unfold visitBody at pass
    repeat' split at pass
    all_goals cases pass
    exact keeps _ _ _ before ‹_›
  rcases runLoop_preserves _ (fun state => Holds state.2) kept holds looped with
    ⟨_, atEnd, leaves⟩
  unfold visitBody at leaves
  repeat' split at leaves
  all_goals cases leaves
  exact atEnd

end

/-- The reader has the data `data` ahead of it, at a block offset. -/
structure ReaderAt (offset : Nat) (data : Bytes) (reader : Reader) : Prop where
  ahead : reader.buffer ++ reader.file = data
  inBlock : offset ≤ kBlockSize
  whole : reader.eof = false -> reader.buffer.length = kBlockSize - offset
  short : reader.eof = true -> reader.file = [] ∧ reader.buffer.length < kBlockSize - offset

theorem length_trailer (offset : Nat) :
    (trailer offset).length = if kBlockSize - offset < kHeaderSize then kBlockSize - offset
      else 0 := by
  unfold trailer
  split <;> simp

/-- The reader after the possible read at the top of `ReadPhysicalRecord`. -/
def refilled (reader : Reader) : Reader :=
  if reader.buffer.length < kHeaderSize ∧ reader.eof = false then readBlock reader else reader

/-- Either the trailer has been passed, or the file ends in it. -/
theorem ReaderAt.refilled {offset : Nat} {data : Bytes} {reader : Reader}
    (position : ReaderAt offset data reader) :
    (ReaderAt (headerOffset offset) (data.drop (trailer offset).length) (refilled reader) ∧
        (trailer offset).length ≤ data.length) ∨
      ((Log.refilled reader).buffer.length < kHeaderSize ∧
        data.length < (trailer offset).length) := by
  rcases reader with ⟨file, buffer, eof, _⟩
  rcases position with ⟨ahead, inBlock, whole, short⟩
  simp only at ahead whole short
  have lengths : buffer.length + file.length = data.length := by
    rw [← ahead, length_append]
  unfold Log.refilled headerOffset
  rw [length_trailer]
  by_cases narrow : kBlockSize - offset < kHeaderSize
  · rw [if_pos narrow, if_pos narrow]
    cases eof with
    | false =>
      have full := whole rfl
      left
      rw [if_pos ⟨show buffer.length < kHeaderSize by omega, rfl⟩]
      have rest : data.drop (kBlockSize - offset) = file := by
        rw [← ahead, ← full, drop_left]
      rw [rest]
      refine ⟨⟨take_append_drop _ _, Nat.zero_le _, ?_, ?_⟩, by omega⟩
      · intro notEof
        change (file.take kBlockSize).length = kBlockSize - 0
        have notShort : ¬ (file.take kBlockSize).length < kBlockSize :=
          of_decide_eq_false notEof
        rw [length_take] at notShort ⊢
        omega
      · intro atEof
        have isShort : (file.take kBlockSize).length < kBlockSize := of_decide_eq_true atEof
        refine ⟨?_, by change (file.take kBlockSize).length < _; omega⟩
        rw [length_take] at isShort
        exact drop_eq_nil_of_le (show file.length ≤ kBlockSize by omega)
    | true =>
      have ended := short rfl
      right
      rw [if_neg (by simp)]
      rw [ended.1] at lengths
      simp only [length_nil] at lengths
      exact ⟨by simp only; omega, by omega⟩
  · rw [if_neg narrow, if_neg narrow]
    left
    have same : ¬ (buffer.length < kHeaderSize ∧ eof = false) := by
      rintro ⟨_, notEof⟩
      have full := whole notEof
      omega
    rw [if_neg same]
    exact ⟨⟨ahead, inBlock, whole, short⟩, Nat.zero_le _⟩

theorem split_front {α : Type} {left right front rest : List α}
    (same : left ++ right = front ++ rest) (covers : front.length ≤ left.length) :
    ∃ more, left = front ++ more ∧ more ++ right = rest := by
  rcases prefix_of_prefix_length_le (prefix_append front rest) ⟨right, same⟩ covers with ⟨more, rfl⟩
  rw [append_assoc] at same
  exact ⟨more, rfl, append_cancel_left same⟩

theorem charToUnsigned_toByte (type : RecordType) :
    charToUnsigned type.toByte = type.toByte.toNat := by
  cases type <;> decide

section
variable (value : Bytes -> BitVec 32)

theorem header_fields (type : RecordType) (payload rest : Bytes) (short : payload.length ≤ 0xffff) :
    (header value type payload ++ rest).getD 6 0 = type.toByte ∧
      ((header value type payload ++ rest).getD 4 0).toNat +
        256 * ((header value type payload ++ rest).getD 5 0).toNat = payload.length ∧
      unmask (BitVec.ofNat 32 (decodeFixed32 (header value type payload ++ rest))) =
        value (type.toByte :: payload) ∧
      (header value type payload ++ rest).drop 6 = type.toByte :: rest := by
  refine ⟨rfl, ?_, ?_, rfl⟩
  · have low : (UInt8.ofNat (payload.length % 256)).toNat = payload.length % 256 := by
      rw [UInt8.toNat_ofNat']
      omega
    have high : (UInt8.ofNat (payload.length / 256)).toNat = payload.length / 256 := by
      rw [UInt8.toNat_ofNat']
      omega
    change (UInt8.ofNat (payload.length % 256)).toNat +
      256 * (UInt8.ofNat (payload.length / 256)).toNat = payload.length
    omega
  · unfold header
    rw [append_assoc, decodeFixed32_encodeFixed32, BitVec.ofNat_toNat, BitVec.setWidth_eq,
      unmask_mask]

variable {reader : Reader} {payload rest : Bytes}

theorem parsePhysicalRecord_whole {type : RecordType}
    (written : type ≠ .zeroType) (short : payload.length ≤ 0xffff)
    (contents : reader.buffer = header value type payload ++ (payload ++ rest)) :
    parsePhysicalRecord value reader =
      ({ reader with buffer := rest }, type.toByte.toNat, payload) := by
  rcases header_fields value type payload (payload ++ rest) short with
    ⟨typeField, lengthField, crcField, tail⟩
  have size : reader.buffer.length = kHeaderSize + payload.length + rest.length := by
    rw [contents, length_append, length_header, length_append]
    omega
  have nonzero : ¬ (type.toByte.toNat = 0 ∧ payload.length = 0) := by
    rintro ⟨zero, _⟩
    cases type with
    | zeroType => exact written rfl
    | fullType => cases zero
    | firstType => cases zero
    | middleType => cases zero
    | lastType => cases zero
  have taken : ((type.toByte :: (payload ++ rest)).take (1 + payload.length)) =
      type.toByte :: payload := by
    rw [add_comm, take_succ_cons, take_left]
  have dropped : (header value type payload ++ (payload ++ rest)).drop
      (kHeaderSize + payload.length) = rest := by
    rw [← length_header value type payload, ← length_append, ← append_assoc, drop_left]
  have fragment : ((header value type payload ++ (payload ++ rest)).drop kHeaderSize).take
      payload.length = payload := by
    rw [← length_header value type payload, drop_left, take_left]
  unfold parsePhysicalRecord
  simp only [contents, typeField, lengthField, crcField, tail, charToUnsigned_toByte, taken,
    dropped, fragment]
  rw [← contents, if_neg (by omega), if_neg nonzero, if_neg (by simp)]

theorem parsePhysicalRecord_cut {type : RecordType} {front : Bytes}
    (short : payload.length ≤ 0xffff) (atEof : reader.eof = true)
    (contents : reader.buffer = header value type payload ++ front)
    (cut : front.length < payload.length) :
    parsePhysicalRecord value reader = ({ reader with buffer := [] }, kEof, []) := by
  rcases header_fields value type payload front short with ⟨_, lengthField, _, _⟩
  have size : reader.buffer.length = kHeaderSize + front.length := by
    rw [contents, length_append, length_header]
  unfold parsePhysicalRecord
  simp only [contents, lengthField]
  rw [← contents, if_pos (by omega), if_pos atEof]

theorem length_placed (offset : Nat) (fragment : Fragment) : (placed value offset fragment).length =
      (trailer offset).length + (kHeaderSize + fragment.payload.length) := by
  unfold placed
  rw [length_append, length_append, length_header]

variable {fragment : Fragment}

theorem payload_short {offset : Nat}
    (room : nextOffset offset fragment ≤ kBlockSize) : fragment.payload.length ≤ 0xffff := by
  unfold nextOffset kBlockSize kHeaderSize at room
  omega

theorem refilled_reports (reader : Reader) : (refilled reader).reports = reader.reports := by
  unfold refilled
  split <;> rfl

theorem readPhysicalRecord_eq (reader : Reader) : readPhysicalRecord value reader =
      if (refilled reader).buffer.length < kHeaderSize then
        ({ refilled reader with buffer := [] }, kEof, [])
      else parsePhysicalRecord value (refilled reader) :=
  rfl

theorem readPhysicalRecord_whole {offset : Nat}
    (position : ReaderAt offset (placed value offset fragment ++ rest) reader)
    (written : fragment.type ≠ .zeroType) (room : nextOffset offset fragment ≤ kBlockSize) :
    ∃ next, readPhysicalRecord value reader = (next, fragment.type.toByte.toNat, fragment.payload) ∧
      ReaderAt (nextOffset offset fragment) rest next ∧ next.reports = reader.reports := by
  have short := payload_short room
  have size := length_placed value offset fragment
  rcases position.refilled with ⟨refilledAt, _⟩ | ⟨_, tooShort⟩
  · have data : (placed value offset fragment ++ rest).drop (trailer offset).length =
        header value fragment.type fragment.payload ++ (fragment.payload ++ rest) := by
      unfold placed
      rw [append_assoc, drop_left, append_assoc]
    rw [data] at refilledAt
    have covers : (header value fragment.type fragment.payload ++ fragment.payload).length ≤
        (refilled reader).buffer.length := by
      rw [length_append, length_header]
      cases atEof : (refilled reader).eof with
      | false =>
        rw [refilledAt.whole atEof]
        unfold nextOffset at room
        omega
      | true =>
        have all := congrArg List.length refilledAt.ahead
        rw [(refilledAt.short atEof).1] at all
        simp only [length_append, length_nil, length_header] at all
        omega
    rcases split_front (refilledAt.ahead.trans (append_assoc _ _ _).symm) covers with
      ⟨more, bufferEq, restEq⟩
    rw [append_assoc] at bufferEq
    have bufferSize : (refilled reader).buffer.length =
        kHeaderSize + (fragment.payload.length + more.length) := by
      rw [bufferEq, length_append, length_header, length_append]
    refine ⟨{ refilled reader with buffer := more }, ?_, ?_, refilled_reports reader⟩
    · rw [readPhysicalRecord_eq, if_neg (by omega),
        parsePhysicalRecord_whole value written short bufferEq]
    · refine ⟨restEq, room, ?_, ?_⟩
      · intro notEof
        have full := refilledAt.whole notEof
        unfold nextOffset
        change more.length = _
        omega
      · intro atEof
        have ended := refilledAt.short atEof
        unfold nextOffset
        refine ⟨ended.1, ?_⟩
        change more.length < _
        omega
  · rw [length_append] at tooShort
    omega

/-- A fragment of which only a proper front is ahead is the end of the log. -/
theorem readPhysicalRecord_cut {offset : Nat} {count : Nat}
    (position : ReaderAt offset ((placed value offset fragment).take count) reader)
    (room : nextOffset offset fragment ≤ kBlockSize)
    (cut : count < (placed value offset fragment).length) :
    ∃ next, readPhysicalRecord value reader = (next, kEof, []) ∧
      next.reports = reader.reports := by
  have short := payload_short room
  have size := length_placed value offset fragment
  refine ⟨{ refilled reader with buffer := [] }, ?_, refilled_reports reader⟩
  rw [readPhysicalRecord_eq]
  by_cases headerMissing : (refilled reader).buffer.length < kHeaderSize
  · rw [if_pos headerMissing]
  · rw [if_neg headerMissing]
    rcases position.refilled with ⟨refilledAt, passed⟩ | ⟨tooShort, _⟩
    · rw [length_take] at passed
      have data : ((placed value offset fragment).take count).drop (trailer offset).length =
          (header value fragment.type fragment.payload ++ fragment.payload).take
            (count - (trailer offset).length) := by
        unfold placed
        rw [drop_take, drop_left]
      rw [data] at refilledAt
      have aheadSize := congrArg List.length refilledAt.ahead
      simp only [length_append, length_take] at aheadSize
      have atEof : (refilled reader).eof = true := by
        cases state : (refilled reader).eof with
        | true => rfl
        | false =>
          have full := refilledAt.whole state
          unfold nextOffset at room
          omega
      have contents := refilledAt.ahead
      rw [(refilledAt.short atEof).1, append_nil, take_append, length_header,
        take_of_length_le (by rw [length_header]; omega)] at contents
      apply parsePhysicalRecord_cut value short atEof contents
      rw [length_take]
      omega
    · exact absurd tooShort headerMissing

/-- A fragment at the front of what is ahead is read, or the log ends inside it. -/
theorem readPhysicalRecord_front {offset length : Nat}
    (position : ReaderAt offset ((placed value offset fragment ++ rest).take length) reader)
    (written : fragment.type ≠ .zeroType) (room : nextOffset offset fragment ≤ kBlockSize) :
    ∃ next, next.reports = reader.reports ∧
      if (placed value offset fragment).length ≤ length then
        readPhysicalRecord value reader = (next, fragment.type.toByte.toNat, fragment.payload) ∧
          ReaderAt (nextOffset offset fragment)
            (rest.take (length - (placed value offset fragment).length)) next
      else readPhysicalRecord value reader = (next, kEof, []) := by
  by_cases inside : (placed value offset fragment).length ≤ length
  · rw [take_append, take_of_length_le inside] at position
    rcases readPhysicalRecord_whole value position written room with
      ⟨next, physical, nextPosition, reports⟩
    exact ⟨next, reports, by rw [if_pos inside]; exact ⟨physical, nextPosition⟩⟩
  · rw [take_append_of_le_length (by omega)] at position
    rcases readPhysicalRecord_cut value position room (not_le.mp inside) with
      ⟨next, physical, reports⟩
    exact ⟨next, reports, by rw [if_neg inside]; exact physical⟩

/-! ## One record -/

theorem readRecordBody_of_physical {state : ReadRecordState} {next : Reader} {begin end_ : Bool}
    (physical : readPhysicalRecord value state.reader =
      (next, (fragmentType begin end_).toByte.toNat, payload))
    (inside : state.inFragmentedRecord = !begin) : readRecordBody value state =
      if end_ then .done (next, some (if begin then payload else state.scratch ++ payload))
      else .again ⟨next, true, if begin then payload else state.scratch ++ payload⟩ := by
  rcases state with ⟨_, _, _⟩
  subst inside
  unfold readRecordBody
  simp only [physical]
  cases begin <;> cases end_ <;> rfl

theorem readRecordBody_of_eof {state : ReadRecordState} {next : Reader}
    (physical : readPhysicalRecord value state.reader = (next, kEof, [])) :
    readRecordBody value state = .done (next, none) := by
  unfold readRecordBody
  simp only [physical]
  rfl

variable {begin : Bool} {record : Bytes} {fragments : List Fragment}
  (split : Fragments begin record fragments) (offset : Nat) (fits : Fits offset fragments)
include split offset fits

/-- A record at the front of what is ahead is joined from its fragments, or the log ends
inside it. -/
theorem readRecordBody_front (rest : Bytes) (length : Nat) (state : ReadRecordState)
    (position : ReaderAt offset ((layout value offset fragments ++ rest).take length) state.reader)
    (inside : state.inFragmentedRecord = !begin) (fresh : begin = true -> state.scratch = []) :
    ∃ count last next, count ≤ ((layout value offset fragments ++ rest).take length).length ∧
      Passes (readRecordBody value) count state last ∧ next.reports = state.reader.reports ∧
      if (layout value offset fragments).length ≤ length then
        readRecordBody value last = .done (next, some (state.scratch ++ record)) ∧
          ReaderAt (layoutEnd offset fragments)
            (rest.take (length - (layout value offset fragments).length)) next
      else readRecordBody value last = .done (next, none) := by
  induction split generalizing offset length state with
  | final begin payload =>
    rcases fits with ⟨written, room, _⟩
    rw [layout, layout, append_nil] at position ⊢
    rcases readPhysicalRecord_front value position written room with ⟨next, reports, physical⟩
    refine ⟨0, state, next, Nat.zero_le _, Passes.zero state, reports, ?_⟩
    split_ifs at physical ⊢
    · rw [readRecordBody_of_physical value physical.1 inside, if_pos rfl]
      refine ⟨?_, physical.2⟩
      cases begin with
      | true => rw [fresh rfl, if_pos rfl, nil_append]
      | false => rw [if_neg Bool.false_ne_true]
    · exact readRecordBody_of_eof value physical
  | more begin payload later fragments _ ih =>
    rcases fits with ⟨written, room, laterFits⟩
    have size := length_placed value offset ⟨fragmentType begin false, payload⟩
    rw [layout, append_assoc] at position ⊢
    rcases readPhysicalRecord_front value position written room with
      ⟨middle, reports, physical⟩
    rw [length_append]
    split at physical
    · next firstInside =>
      have again := readRecordBody_of_physical value physical.1 inside
      rcases ih _ laterFits _ ⟨middle, true, if begin then payload else state.scratch ++ payload⟩
          physical.2 rfl (fun impossible => by cases impossible) with
        ⟨count, last, next, _, passes, laterReports, leaves⟩
      refine ⟨1 + count, last, next, ?_, (Passes.one again).trans passes,
        laterReports.trans reports, ?_⟩
      · unfold kHeaderSize at size
        rw [take_append, take_of_length_le firstInside, length_append]
        omega
      · have joined : (if begin then payload else state.scratch ++ payload) ++ later =
            state.scratch ++ (payload ++ later) := by
          cases begin with
          | true => rw [if_pos rfl, fresh rfl, nil_append]
          | false => rw [if_neg Bool.false_ne_true, append_assoc]
        simp only [Nat.le_sub_iff_add_le' firstInside, Nat.sub_sub, joined] at leaves
        exact leaves
    · refine ⟨0, state, middle, Nat.zero_le _, Passes.zero state, reports, ?_⟩
      rw [if_neg (by omega)]
      exact readRecordBody_of_eof value physical

end

end Log
end Doux
