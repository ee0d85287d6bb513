import Doux.Log.TornTail

namespace Doux
namespace Log

open Foundation Util List

/-!
# Appending to a log that was cut

A recovery takes a torn fragment for the end of the log.  Once records follow, the reader
takes their bytes for the missing part of the torn fragment.  This does no harm exactly when
less than a header is left of its block, so that the writer fills the block with zeros, and
the zeros do not complete a record.

If there is room for a header, two records tell that something gets lost, for every checksum
function: an empty one, and one that fills the block and goes on in the next.  If both were
found, the headers of both would be the completion of the same torn header.
-/

section
variable {value : Bytes -> BitVec 32}

variable {reader : Reader}

theorem ReaderAt.fills {offset : Nat} {front back : Bytes}
    (position : ReaderAt offset (front ++ back) reader)
    (full : front.length = kBlockSize - offset) :
    reader.eof = false ∧ reader.buffer = front ∧ reader.file = back := by
  have sizes := congrArg length position.ahead
  rw [length_append, length_append] at sizes
  cases atEof : reader.eof with
  | true =>
    rcases position.short atEof with ⟨ended, _⟩
    rw [ended, length_nil] at sizes
    omega
  | false =>
    have same := position.whole atEof
    exact ⟨rfl, append_inj position.ahead (by omega)⟩

theorem ReaderAt.ends {offset : Nat} {data : Bytes} (position : ReaderAt offset data reader)
    (short : data.length ≤ kBlockSize - offset) : reader.buffer = data ∧ reader.file = [] := by
  have sizes := congrArg length position.ahead
  rw [length_append] at sizes
  have ended : reader.file = [] := by
    cases atEof : reader.eof with
    | true => exact (position.short atEof).1
    | false =>
      have same := position.whole atEof
      exact length_eq_zero_iff.mp (by omega)
  refine ⟨?_, ended⟩
  rw [<- position.ahead, ended, append_nil]

variable (value) in
theorem typeByte_take (fragment : Fragment) {count : Nat} (rest : Bytes)
    (complete : kHeaderSize ≤ count) :
    ((fragmentBytes value fragment).take count ++ rest).getD 6 0 = fragment.type.toByte := by
  rw [fragmentBytes_take value rest complete]
  rfl

theorem typeByte_zeros {torn : Bytes} (left : Nat) (short : torn.length < kHeaderSize) :
    (torn ++ replicate left 0).getD 6 0 = 0 := by
  unfold kHeaderSize at short
  rw [getD_eq_getElem?_getD, getElem?_append_right (by omega), getElem?_replicate]
  split <;> rfl

variable {fragment : Fragment} {assembly : Assembly}

theorem length_take_fragmentBytes {count : Nat}
    (cut : count < kHeaderSize + fragment.payload.length) :
    ((fragmentBytes value fragment).take count).length = count := by
  rw [length_take, length_fragmentBytes, Nat.min_eq_left (le_of_lt cut)]

/-- A torn fragment in a block that was filled with zeros is revived or dropped; either way
the reader goes on with the next block. -/
theorem yields_filled {count offset : Nat} {end_ : Bool} (torn : Bytes)
    (tornEq : torn = (fragmentBytes value fragment).take count)
    (cut : count < kHeaderSize + fragment.payload.length)
    (room : offset + kHeaderSize + fragment.payload.length ≤ kBlockSize)
    (type : fragment.type = fragmentType (!assembly.inFragmentedRecord) end_)
    (narrow : kBlockSize < offset + torn.length + kHeaderSize)
    (more : reader.eof = false) (contents : reader.buffer =
      torn ++ replicate (kBlockSize - (offset + torn.length)) 0) :
    ∃ (after : Assembly) (next : Reader), next.buffer.length < kHeaderSize ∧
      next.eof = false ∧ next.file = reader.file ∧
      SameScan value assembly reader after next ∧
      ((Revived value offset torn ∧ ∃ found, after.records = assembly.records ++ [found]) ∨
        (¬ Revived value offset torn ∧ after.records = assembly.records)) := by
  have size : torn.length = count := tornEq ▸ length_take_fragmentBytes cut
  have bufferSize : reader.buffer.length = kBlockSize - offset := by
    rw [contents, length_append, length_replicate]
    omega
  have bad : (assembly.take kBadRecord []).records = assembly.records := by
    rcases assembly.take_bad with ⟨_, same⟩
    rw [same]
  have enough : kHeaderSize ≤ reader.buffer.length := by omega
  by_cases complete : kHeaderSize ≤ count
  · have short : fragment.payload.length ≤ 0xffff := by
      unfold kBlockSize kHeaderSize at room
      omega
    have field := lengthField_take value
      (replicate (kBlockSize - (offset + torn.length)) 0) short complete
    have tornField := lengthField_take value [] short complete
    have typeByte := typeByte_take value fragment
      (replicate (kBlockSize - (offset + torn.length)) 0) complete
    have tornType := typeByte_take value fragment [] complete
    rw [<- tornEq, <- contents] at field typeByte
    rw [<- tornEq, append_nil] at tornField tornType
    have revived : Revived value offset torn <->
        (end_ = true ∧ Taken value reader.buffer fragment.payload.length) := by
      have ends : fragment.type.toByte = 1 ∨ fragment.type.toByte = 4 <-> end_ = true := by
        rw [type]
        cases assembly.inFragmentedRecord <;> cases end_ <;> decide
      have nonzero : charToUnsigned (reader.buffer.getD 6 0) ≠ 0 := by
        rw [typeByte, type]
        cases assembly.inFragmentedRecord <;> cases end_ <;> decide
      have decoded : decodeFixed32 reader.buffer = decodeFixed32 torn := by
        unfold kHeaderSize at complete
        rw [contents, decodeFixed32, take_append_of_le_length (by omega), decodeFixed32]
      unfold Revived
      rw [tornType, tornField, ends, <- contents, <- decoded]
      constructor
      · rintro ⟨_, ended, crc⟩
        exact ⟨ended, by omega, field.symm, fun zero => nonzero zero.1, crc⟩
      · rintro ⟨ended, taken⟩
        exact ⟨by omega, ended, taken.crc⟩
    rcases finds_parse enough assembly with ⟨_, impossible⟩ |
      ⟨next, empty, file, eof, never, same⟩ |
      ⟨next, length, _, _, taken, typeEq, _, rest, file, eof, same⟩
    · rw [more, typeByte, charToUnsigned_toByte] at impossible
      rcases impossible with impossible | impossible
      · cases impossible
      · exact absurd impossible fragment.type.toByte_ne_kEof
    · refine ⟨_, next, by rw [empty]; decide, eof.trans more, file, same, Or.inr ⟨?_, bad⟩⟩
      exact fun holds => never _ (revived.mp holds).2
    · have lengthEq : length = fragment.payload.length := taken.field.trans field
      subst lengthEq
      refine ⟨_, next, ?_, eof.trans more, file, same, ?_⟩
      · rw [rest, length_drop]
        omega
      · rw [typeByte, type] at typeEq
        rw [typeEq, revived]
        rcases assembly with ⟨_, inside, _⟩
        cases end_ with
        | true => exact Or.inl ⟨⟨rfl, taken⟩, by cases inside <;> exact ⟨_, rfl⟩⟩
        | false => exact Or.inr ⟨fun never => Bool.false_ne_true never.1, by cases inside <;> rfl⟩
  · have typeByte := typeByte_zeros (kBlockSize - (offset + torn.length))
      (show torn.length < kHeaderSize by omega)
    rw [<- contents] at typeByte
    have dead : ¬ Revived value offset torn := fun ⟨complete, _⟩ => by omega
    rcases finds_parse enough assembly with ⟨_, impossible⟩ |
      ⟨next, empty, file, eof, _, same⟩ |
      ⟨next, _, _, _, taken, typeEq, _, rest, file, eof, same⟩
    · rw [more, typeByte] at impossible
      rcases impossible with impossible | impossible
      · cases impossible
      · exact absurd impossible (by decide)
    · exact ⟨_, next, by rw [empty]; decide, eof.trans more, file, same, Or.inr ⟨dead, bad⟩⟩
    · have nonzero := taken.nonzero
      rw [typeByte] at typeEq nonzero
      refine ⟨_, next, ?_, eof.trans more, file, same, Or.inr ⟨dead, ?_⟩⟩
      · rw [rest, length_drop]
        omega
      · rw [typeEq]
        rfl

namespace CutAt

variable {file : Bytes} {fragments : List Fragment} {next : Fragment} {count : Nat}

/-- The state of the reader before the torn fragment. -/
theorem assembled_spec (cutAt : CutAt value file fragments next count) :
    ((assembled fragments).inFragmentedRecord = true -> finish fragments = kBlockSize) ∧
      ∃ end_, next.type = fragmentType (!(assembled fragments).inFragmentedRecord) end_ :=
  sequenced_foldl cutAt.sequenced nofun

/-- Records behind a torn fragment that leaves no room for a header come back; the torn
fragment comes back too when it is revived. -/
theorem read_filled (cutAt : CutAt value file fragments next count)
    (torn : (trailer (finish fragments)).length < count)
    (narrow : kBlockSize < (tornTail file).1 + (tornTail file).2.length + kHeaderSize)
    {chunk : Chunk} {chunks : List Chunk}
    (chained : Chained (reopen file).blockOffset (chunk :: chunks)) : ∃ kept,
      ((Revived value (tornTail file).1 (tornTail file).2 ∧
          ∃ found, kept = (assembled fragments).records ++ [found]) ∨
        (¬ Revived value (tornTail file).1 (tornTail file).2 ∧
          kept = (assembled fragments).records)) ∧ ∀ result, ((∃ reports, readLog value
          (file ++ chunkBytes value (reopen file).blockOffset (chunk :: chunks)) =
            some (result, reports)) <-> result = kept ++ (chunk :: chunks).map Chunk.record) := by
  rcases cutAt.assembled_spec with ⟨_, _, type⟩
  rcases cutAt.blockOffset_torn torn with ⟨offset, cut, room⟩
  rcases cutAt.read_torn torn (chunkBytes value (reopen file).blockOffset (chunk :: chunks)) with
    ⟨_, readerAt, found⟩
  rw [cutAt.tornTail_eq] at narrow ⊢
  generalize headerOffset (finish fragments) = start at *
  generalize shown fragments count = present at *
  have size : ((fragmentBytes value next).take present).length = present :=
    length_take_fragmentBytes cut
  rw [size] at narrow
  have noHeader : kBlockSize - (reopen file).blockOffset < kHeaderSize := by omega
  have zeros : trailer (reopen file).blockOffset = replicate
        (kBlockSize - (start + ((fragmentBytes value next).take present).length)) 0 := by
    rw [size, <- offset]
    exact if_pos noHeader
  have same : headerOffset (reopen file).blockOffset = headerOffset kBlockSize := if_pos noHeader
  have bytes : trailer (reopen file).blockOffset =
      trailer (reopen file).blockOffset ++ trailer kBlockSize := (append_nil _).symm
  rcases Chained.shift value same bytes chained.1 with ⟨still, chunkBytesEq⟩
  rw [chunkBytesEq, <- append_assoc] at readerAt
  rcases readerAt.fills (by
      rw [length_append, zeros, length_replicate]
      omega) with ⟨more, contents, rest⟩
  rw [zeros] at contents
  rcases yields_filled _ rfl cut room type (by rw [size]; exact narrow) more contents with
    ⟨after, _, short, lastEof, lastFile, sameYields, kept⟩
  refine ⟨after.records, kept, fun result => ?_⟩
  rw [found, sameYields, sameScan_refill short lastEof]
  refine finds_chunks (still.mp chained) ⟨?_, le_refl _, fun _ => ?_, fun atEof => ?_⟩ _ _
  · exact lastFile.trans rest
  · rw [Nat.sub_self]
    rfl
  · rw [lastEof] at atEof
    cases atEof

end CutAt

/-! ## A torn fragment that leaves room for a header -/

variable (value) in
theorem addRecord_nil {writer : Writer} (wide : writer.blockOffset + kHeaderSize ≤ kBlockSize) :
    ∃ finish, addRecord value writer [] =
      .ok ⟨writer.dest ++ header value .fullType [], finish⟩ := by
  have count : payloadLength writer.blockOffset [] = 0 :=
    Nat.le_zero.mp (payloadLength_le writer.blockOffset [])
  have fragment : passFragment ⟨true, [], writer⟩ = ⟨.fullType, []⟩ := by
    unfold passFragment
    simp only [count]
    rfl
  have none : trailer writer.blockOffset = [] := if_neg (by omega)
  have inBlock : (AddRecordState.mk true [] writer).writer.blockOffset ≤ kBlockSize :=
    le_trans (Nat.le_add_right _ _) wide
  have pass := addRecordPass_eq value inBlock
  rw [fragment, placed, none, nil_append, append_nil] at pass
  refine ⟨nextOffset writer.blockOffset ⟨.fullType, []⟩, ?_⟩
  have body : addRecordBody value ⟨true, [], writer⟩ = .done (.ok
      ⟨writer.dest ++ header value .fullType [],
        nextOffset writer.blockOffset ⟨.fullType, []⟩⟩) := by
    unfold addRecordBody
    rw [pass]
    dsimp only
    rw [count]
    rfl
  unfold addRecord
  rw [(Passes.zero _).returns body (by omega)]

variable (value) in
/-- A record that fills the block and needs a header's length more. -/
theorem addRecord_straddling {writer : Writer} (byte : UInt8)
    (wide : writer.blockOffset + kHeaderSize ≤ kBlockSize) : ∃ finish, addRecord value writer
        (replicate (kBlockSize - writer.blockOffset) byte) =
      .ok ⟨writer.dest ++ (fragmentBytes value ⟨.firstType,
          replicate (kBlockSize - writer.blockOffset - kHeaderSize) byte⟩ ++
        fragmentBytes value ⟨.lastType, replicate kHeaderSize byte⟩), finish⟩ := by
  rcases addRecord_layout value writer
      (replicate (kBlockSize - writer.blockOffset) byte) (by omega) with
    ⟨_, split, fits, sequenced, added⟩
  have none : trailer writer.blockOffset = [] := if_neg (by omega)
  have same : headerOffset writer.blockOffset = writer.blockOffset := if_neg (by omega)
  generalize recordEq : replicate (kBlockSize - writer.blockOffset) byte = record at *
  have size : record.length = kBlockSize - writer.blockOffset := by
    rw [<- recordEq, length_replicate]
  have positive : 0 < kHeaderSize := by decide
  cases split with
  | final _ _ =>
    have room := fits.2.1
    unfold nextOffset at room
    rw [same] at room
    dsimp only at room
    omega
  | more _ payload rest others later =>
    rcases sequenced with ⟨end_, type, fills, laterSequenced⟩
    have unfinished : end_ = false := by cases end_ <;> cases type; rfl
    have filled : nextOffset writer.blockOffset ⟨.firstType, payload⟩ = kBlockSize :=
      fills unfinished
    change Sequenced (!end_) (nextOffset writer.blockOffset ⟨.firstType, payload⟩) _
      at laterSequenced
    rw [filled] at laterSequenced
    rcases append_eq_replicate_iff.mp recordEq.symm with ⟨_, payloadEq, restEq⟩
    have payloadSize : payload.length = kBlockSize - writer.blockOffset - kHeaderSize := by
      unfold nextOffset at filled
      rw [same] at filled
      dsimp only at filled
      omega
    have restSize : rest.length = kHeaderSize := by
      rw [length_append] at size
      omega
    rw [payloadSize] at payloadEq
    rw [restSize] at restEq
    cases later with
    | final _ _ =>
      have bytes : layout value writer.blockOffset [⟨.firstType, payload⟩, ⟨.lastType, rest⟩] =
          fragmentBytes value ⟨.firstType, payload⟩ ++ fragmentBytes value ⟨.lastType, rest⟩ := by
        rw [layout, layout, layout, filled, placed, placed, none, trailer_kBlockSize, append_nil]
        rfl
      rw [<- payloadEq, <- restEq, <- bytes]
      exact ⟨_, added⟩
    | more _ middle tail others _ =>
      rcases laterSequenced with ⟨endLater, typeLater, fillsLater, _⟩
      have unfinishedLater : endLater = false := by
        rw [unfinished] at typeLater
        cases endLater <;> cases typeLater
        rfl
      have filledLater := fillsLater unfinishedLater
      unfold nextOffset at filledLater
      rw [show headerOffset kBlockSize = 0 by decide] at filledLater
      rw [length_append] at restSize
      unfold kBlockSize kHeaderSize at *
      dsimp only at filledLater
      omega

variable {record : Bytes}

theorem not_found_spent (short : reader.buffer.length < kHeaderSize)
    (ended : reader.file = []) : ¬ Finds value assembly reader (assembly.records ++ [record]) := by
  rw [finds_spent short ended]
  exact fun same => cons_ne_nil record [] (append_right_eq_self.mp same)

/-- A physical record of this type begins the data, or it continues what the assembly has. -/
def Joins (assembly : Assembly) (buffer : Bytes) (length type : Nat) (data : Bytes) : Prop :=
  ∃ front, (front = [] ∧ charToUnsigned (buffer.getD 6 0) = type ∨
    front = assembly.scratch ∧ assembly.inFragmentedRecord = true) ∧
      data = front ++ (buffer.drop kHeaderSize).take length

/-- One pass of a scan that finds one more record: it drops the buffer, or takes a physical
record off it, which is dropped, kept, or completes the record. -/
theorem found_step (enough : kHeaderSize ≤ reader.buffer.length)
    (yields : Finds value assembly reader (assembly.records ++ [record])) :
    ∃ next : Reader, next.eof = reader.eof ∧ next.file = reader.file ∧
      ((next.buffer = [] ∧ ∃ after : Assembly, after.inFragmentedRecord = false ∧
          Finds value after next (after.records ++ [record])) ∨
        ∃ length, Taken value reader.buffer length ∧
          next.buffer.length + (kHeaderSize + length) = reader.buffer.length ∧
          ((∃ after : Assembly, (after.inFragmentedRecord = false ∨
              Joins assembly reader.buffer length 2 after.scratch) ∧
            Finds value after next (after.records ++ [record])) ∨
          Joins assembly reader.buffer length 1 record)) := by
  rcases finds_parse enough assembly with ⟨ends, _⟩ | ⟨next, empty, file, eof, _, same⟩ |
    ⟨next, length, type, payload, taken, typeEq, payloadEq, rest, file, eof, same⟩
  · have never := (ends _).mp yields
    exact absurd (append_right_eq_self.mp never) (cons_ne_nil record [])
  · rcases assembly.take_bad with ⟨_, bad⟩
    rw [same, bad] at yields
    exact ⟨next, eof, file, Or.inl ⟨empty, _, rfl, yields⟩⟩
  · have size : next.buffer.length + (kHeaderSize + length) = reader.buffer.length := by
      rw [rest, length_drop]
      exact Nat.sub_add_cancel taken.fits
    refine ⟨next, eof, file, Or.inr ⟨length, taken, size, ?_⟩⟩
    have finished {whole : Bytes} {state : ReadRecordState}
        (yields : Yields value state (assembly.records ++ [whole])
          (assembly.records ++ [record])) : record = whole := by
      rcases yields.extends with ⟨_, extended⟩
      rw [append_assoc] at extended
      exact (cons.inj (append_cancel_left extended)).1
    rw [same] at yields
    unfold Joins
    rw [<- payloadEq, <- typeEq]
    rcases assembly.take_cases type payload with ⟨full, after⟩ | ⟨first, after⟩ |
      ⟨inside, after⟩ | ⟨inside, after⟩ | ⟨_, after⟩
    all_goals rw [after] at yields
    · exact Or.inr ⟨[], Or.inl ⟨rfl, full⟩, finished yields⟩
    · exact Or.inl ⟨_, Or.inr ⟨[], Or.inl ⟨rfl, first⟩, rfl⟩, yields⟩
    · exact Or.inl ⟨_, Or.inr ⟨_, Or.inr ⟨rfl, inside⟩, rfl⟩, yields⟩
    · exact Or.inr ⟨_, Or.inr ⟨rfl, inside⟩, finished yields⟩
    · exact Or.inl ⟨_, Or.inl rfl, yields⟩

/-- An empty record behind a torn fragment is found only if its header completes the torn
one to itself. -/
theorem empty_found {count : Nat} (cut : count < kHeaderSize + fragment.payload.length)
    (room : fragment.payload.length ≤ 0xffff) (contents : reader.buffer =
      (fragmentBytes value fragment).take count ++ header value .fullType [])
    (ended : reader.file = []) (yields : Finds value assembly reader (assembly.records ++ [[]])) :
    count < kHeaderSize ∧ (assembly.inFragmentedRecord = false ->
      header value .fullType [] = (fragmentBytes value fragment).take count ++
        (header value .fullType []).take (kHeaderSize - count)) := by
  have tornSize : ((fragmentBytes value fragment).take count).length = count :=
    length_take_fragmentBytes cut
  have size : reader.buffer.length = count + kHeaderSize := by
    rw [contents, length_append, length_header, tornSize]
  rcases found_step (by omega) yields with ⟨_, _, file, ⟨none, _, _, found⟩ |
    ⟨length, taken, _, ⟨_, _, found⟩ | ⟨_, begins, data⟩⟩⟩
  · exact absurd found (not_found_spent (by rw [none]; decide) (file.trans ended))
  · refine absurd found (not_found_spent ?_ (file.trans ended))
    by_cases complete : kHeaderSize ≤ count
    · have field : length = fragment.payload.length := by
        rw [taken.field, contents]
        exact lengthField_take value _ room complete
      omega
    · omega
  · rcases append_eq_nil_iff.mp data.symm with ⟨_, payload⟩
    have empty : length = 0 := by rw [<- taken.length_payload, payload, length_nil]
    have incomplete : count < kHeaderSize := by
      by_contra complete
      have field := lengthField_take value (header value .fullType []) room (not_lt.mp complete)
      rw [<- contents, <- taken.field] at field
      omega
    refine ⟨incomplete, fun outside => ?_⟩
    rcases begins with ⟨_, full⟩ | ⟨_, inside⟩
    · have header_eq := taken.header_eq (show _ = RecordType.fullType.toByte.toNat from full)
      rw [payload, contents, take_append, tornSize, take_of_length_le (by omega)] at header_eq
      exact header_eq.symm
    · rw [outside] at inside
      cases inside

/-- What the assembly has of a record of equal bytes and the buffer are shorter than this. -/
def Roomy (byte : UInt8) (bound : Nat) (assembly : Assembly) (buffer : Bytes) : Prop :=
  buffer.length < bound ∧ (assembly.inFragmentedRecord = true ->
    (∀ other ∈ assembly.scratch, other = byte) -> assembly.scratch.length + buffer.length < bound)

theorem Joins.length_lt {byte : UInt8} {bound length type : Nat} {buffer data : Bytes}
    (joins : Joins assembly buffer length type data) (roomy : Roomy byte bound assembly buffer)
    (taken : Taken value buffer length) (plain : ∀ other ∈ data, other = byte) :
    data.length + buffer.length < bound + length := by
  rcases joins with ⟨_, begins, rfl⟩
  rw [length_append, taken.length_payload]
  rcases begins with ⟨rfl, _⟩ | ⟨rfl, inside⟩
  · have short := roomy.1
    rw [length_nil]
    omega
  · have short := roomy.2 inside fun other member => plain other (mem_append_left _ member)
    omega

section
variable {byte : UInt8} {avail : Nat} (yields : Finds value assembly reader
  (assembly.records ++ [List.replicate (avail + kHeaderSize) byte])) (more : reader.eof = false)
  (file : reader.file = fragmentBytes value ⟨.lastType, List.replicate kHeaderSize byte⟩)
include yields more file

theorem last_found (empty : reader.buffer.length < kHeaderSize) :
    assembly.inFragmentedRecord = true ∧ assembly.scratch = replicate avail byte := by
  have small : (fragmentBytes value ⟨.lastType, replicate kHeaderSize byte⟩).length ≤
      kBlockSize := by
    rw [length_fragmentBytes, length_replicate]
    decide
  have read : refilled reader = readBlock reader := if_pos ⟨empty, more⟩
  rw [sameScan_refilled (refilled_refilled reader).symm, read] at yields
  have contents : (readBlock reader).buffer =
      fragmentBytes value ⟨.lastType, replicate kHeaderSize byte⟩ := by
    rw [<- file] at small ⊢
    exact take_of_length_le small
  have ended : (readBlock reader).file = [] := drop_eq_nil_of_le (file ▸ small)
  have size : (readBlock reader).buffer.length = kHeaderSize + kHeaderSize := by
    rw [contents, length_fragmentBytes, length_replicate]
  rcases found_step (by omega) yields with ⟨_, _, nextFile, ⟨none, _, _, found⟩ |
    ⟨length, taken, _, joined⟩⟩
  · exact absurd found (not_found_spent (by rw [none]; decide) (nextFile.trans ended))
  · have field : length = kHeaderSize := by
      rw [taken.field, contents]
      have short : (replicate kHeaderSize byte).length ≤ 0xffff := by
        rw [length_replicate]
        decide
      exact (header_fields value _ _ _ short).2.1.trans (length_replicate ..)
    subst field
    rcases joined with ⟨_, _, found⟩ | ⟨_, begins, data⟩
    · refine absurd found (not_found_spent ?_ (nextFile.trans ended))
      unfold kHeaderSize at *
      omega
    · rw [contents] at begins data
      rcases begins with ⟨_, type⟩ | ⟨rfl, inside⟩
      · cases type
      · rw [fragmentBytes, drop_left' (length_header ..), take_of_length_le
          (length_replicate ..).le,
          replicate_add] at data
        exact ⟨inside, (append_cancel_right data).symm⟩

/-- In the block before its last fragment a long record has all that this fragment does not
give already, or a physical record completes it to that. -/
theorem straddling_found (roomy : Roomy byte (avail + 2 * kHeaderSize) assembly reader.buffer) :
    (reader.buffer.length < kHeaderSize ∧ assembly.inFragmentedRecord = true ∧
        assembly.scratch = replicate avail byte) ∨
      ∃ length, Taken value reader.buffer length ∧
        Joins assembly reader.buffer length 2 (replicate avail byte) := by
  induction size : reader.buffer.length using Nat.strong_induction_on
    generalizing reader assembly with
  | _ size ih =>
    by_cases empty : reader.buffer.length < kHeaderSize
    · exact Or.inl ⟨size ▸ empty, last_found yields more file empty⟩
    · have positive : 0 < kHeaderSize := by decide
      have plain (count : Nat) : ∀ other ∈ replicate count byte, other = byte :=
        fun _ => eq_of_mem_replicate
      rcases found_step (not_lt.mp empty) yields with ⟨next, eof, nextFile,
        ⟨none, after, outside, found⟩ | ⟨length, taken, _, ⟨after, kept, found⟩ | whole⟩⟩
      · have less : next.buffer.length = 0 := by rw [none, length_nil]
        have nextRoomy : Roomy byte (avail + 2 * kHeaderSize) after next.buffer :=
          ⟨by omega, fun inside => by rw [outside] at inside; cases inside⟩
        rcases ih _ (by omega) found (eof.trans more) (nextFile.trans file) nextRoomy rfl with
          ⟨_, inside, _⟩ | ⟨_, other, _⟩
        · rw [outside] at inside
          cases inside
        · have fits := other.fits
          omega
      · have short := roomy.1
        have nextRoomy : Roomy byte (avail + kHeaderSize) after next.buffer := by
          refine ⟨by omega, fun inside scratch => ?_⟩
          have joins := kept.resolve_left (by rw [inside]; exact Bool.true_eq_false_eq_False)
          have less := joins.length_lt roomy taken scratch
          omega
        rcases ih _ (by omega) found (eof.trans more) (nextFile.trans file)
            ⟨by omega, fun inside scratch => by have := nextRoomy.2 inside scratch; omega⟩ rfl with
          ⟨_, inside, data⟩ | ⟨_, other, joins⟩
        · rw [data, inside] at kept
          exact Or.inr ⟨length, taken, kept.resolve_left Bool.noConfusion⟩
        · have less := joins.length_lt nextRoomy other (plain avail)
          have fits := other.fits
          rw [length_replicate] at less
          omega
      · have less := whole.length_lt roomy taken (plain _)
        rw [length_replicate] at less
        have fits := taken.fits
        omega

end

/-- What is completed from its own front is determined by it. -/
theorem completed_unique {torn first second : Bytes} {size : Nat} (nonempty : 0 < torn.length)
    (firstEq : first = torn ++ first.take size) (secondEq : second = torn ++ second.take size) :
    first = second := by
  have fronts (count : Nat) : first.take count = second.take count := by
    induction count using Nat.strong_induction_on with
    | _ count ih =>
      rcases eq_zero_or_pos count with zero | _
      · rw [zero, take_zero, take_zero]
      · rw [firstEq, secondEq, take_append, take_append, take_take, take_take, ih _ (by omega)]
  calc
    first = first.take (first.length + second.length) :=
      (take_of_length_le (Nat.le_add_right _ _)).symm
    _ = second.take (first.length + second.length) := fronts _
    _ = second := take_of_length_le (Nat.le_add_left _ _)

theorem exists_fresh_byte (scratch : Bytes) :
    ∃ byte : UInt8, byte ≠ 2 ∧ ((∀ other ∈ scratch, other = byte) -> scratch = []) := by
  cases scratch with
  | nil => exact ⟨0, by decide, fun _ => rfl⟩
  | cons head scratch =>
    by_cases zero : head = 0
    · refine ⟨1, by decide, fun plain => ?_⟩
      rw [zero] at plain
      exact absurd (plain 0 mem_cons_self) (by decide)
    · exact ⟨0, by decide, fun plain => absurd (plain head mem_cons_self) zero⟩

/-! ## Which files may be reused -/

theorem addRecords_singleton {writer next : Writer}
    (added : addRecord value writer record = .ok next) :
    addRecords value writer [record] = .ok next := by
  rw [addRecords, added]
  rfl

variable (value) in
/-- Whatever is appended to a reopened file is read back behind the given records. -/
def Keeps (file : Bytes) (records : List Bytes) : Prop :=
  forall appended, ∃ after reports, addRecords value (reopen file) appended = .ok after ∧
    readLog value after.dest = some (records ++ appended, reports)

namespace CutAt

variable {file : Bytes} {fragments : List Fragment} {next : Fragment} {count : Nat}

/-- A torn fragment that leaves room for a header makes an empty record or a long one get
lost. -/
theorem loses_wide (cutAt : CutAt value file fragments next count)
    (torn : (trailer (finish fragments)).length < count)
    (wide : (reopen file).blockOffset + kHeaderSize ≤ kBlockSize)
    (keeps : Keeps value file (assembled fragments).records) : False := by
  rcases cutAt.assembled_spec with ⟨atEnd, _⟩
  rcases cutAt.blockOffset_torn torn with ⟨_, cut, room⟩
  have found {appended : List Bytes} {rest : Bytes} {last : Nat}
      (added : addRecords value (reopen file) appended = .ok ⟨file ++ rest, last⟩) :
      ∃ reader, ReaderAt (headerOffset (finish fragments))
          ((fragmentBytes value next).take (shown fragments count) ++ rest)
          reader ∧
        Finds value (assembled fragments) reader ((assembled fragments).records ++ appended) := by
    rcases keeps appended with ⟨_, reports, same, read⟩
    rw [added] at same
    cases same
    rcases cutAt.read_torn torn rest with ⟨reader, readerAt, iff⟩
    exact ⟨reader, readerAt, (iff _).mp ⟨reports, read⟩⟩
  have nonempty : 0 < shown fragments count := Nat.sub_pos_of_lt torn
  generalize startEq : headerOffset (finish fragments) = start at *
  generalize shown fragments count = present at *
  generalize assembled fragments = assembly at *
  have tornSize : ((fragmentBytes value next).take present).length = present :=
    length_take_fragmentBytes cut
  -- The empty record.
  rcases addRecord_nil value wide with ⟨_, emptyAdded⟩
  rcases found (addRecords_singleton emptyAdded) with ⟨_, readerAt, yields⟩
  rcases readerAt.ends (by
      rw [length_append, length_header, tornSize]
      omega) with ⟨contents, ended⟩
  have short : next.payload.length ≤ 0xffff := by
    unfold kBlockSize kHeaderSize at room
    omega
  rcases empty_found cut short contents ended yields with ⟨_, emptyHeader⟩
  -- The long record.
  rcases exists_fresh_byte assembly.scratch with ⟨byte, notFirst, fresh⟩
  rcases addRecord_straddling value byte wide with ⟨_, longAdded⟩
  rcases found (addRecords_singleton longAdded) with ⟨longReader, longReaderAt, longYields⟩
  have recordSize : kBlockSize - (reopen file).blockOffset =
      kBlockSize - (reopen file).blockOffset - kHeaderSize + kHeaderSize := by omega
  generalize availEq : kBlockSize - (reopen file).blockOffset - kHeaderSize = avail at *
  rw [recordSize] at longYields
  rw [<- append_assoc] at longReaderAt
  rcases longReaderAt.fills (by
      rw [length_append, tornSize, length_fragmentBytes, length_replicate]
      omega) with ⟨more, longContents, longFile⟩
  have size : longReader.buffer.length = present + (kHeaderSize + avail) := by
    rw [longContents, length_append, tornSize, length_fragmentBytes, length_replicate]
  have roomy : Roomy byte (avail + 2 * kHeaderSize) assembly longReader.buffer := by
    refine ⟨by omega, fun _ plain => ?_⟩
    rw [fresh plain, length_nil]
    omega
  rcases straddling_found longYields more longFile roomy with ⟨_, _⟩ |
    ⟨length, taken, front, begins, data⟩
  · omega
  have started : front = [] ∧ (charToUnsigned (longReader.buffer.getD 6 0) = 2 ∨
      assembly.inFragmentedRecord = true) := by
    rcases begins with ⟨none, first⟩ | ⟨rfl, inside⟩
    · exact ⟨none, Or.inl first⟩
    · exact ⟨fresh fun other member => eq_of_mem_replicate (data ▸ mem_append_left _ member),
        Or.inr inside⟩
  rw [started.1, nil_append] at data
  have lengthEq : length = avail := by rw [<- taken.length_payload, <- data, length_replicate]
  subst lengthEq
  by_cases covered : present ≤ length
  · -- The type byte of the first fragment would be part of the record.
    have typeByte : ((longReader.buffer.drop kHeaderSize).take length)[present - 1]? = some 2 := by
      rw [getElem?_take_of_lt (by omega), getElem?_drop, longContents,
        getElem?_append_right (by rw [tornSize]; unfold kHeaderSize; omega), tornSize,
        show kHeaderSize + (present - 1) - present = 6 by unfold kHeaderSize; omega]
      rfl
    rw [<- data, getElem?_replicate, if_pos (by omega)] at typeByte
    exact notFirst (Option.some.inj typeByte)
  · -- Both headers would be the completion of the torn one.
    have outside : assembly.inFragmentedRecord = false := by
      rw [Bool.eq_false_iff]
      intro inside
      rw [atEnd inside] at startEq
      have zero : headerOffset kBlockSize = 0 := by decide
      unfold kBlockSize kHeaderSize at *
      omega
    have first : charToUnsigned (longReader.buffer.getD 6 0) = RecordType.firstType.toByte.toNat :=
      started.2.resolve_right (by rw [outside]; exact Bool.false_ne_true)
    have front : (fragmentBytes value ⟨.firstType, replicate length byte⟩).take
        (kHeaderSize - present) =
        (header value .firstType (replicate length byte)).take (kHeaderSize - present) :=
      take_append_of_le_length (by rw [length_header]; omega)
    have firstHeader := taken.header_eq first
    rw [<- data, longContents, take_append, tornSize, take_of_length_le (by omega),
      front] at firstHeader
    have same := completed_unique (by rw [tornSize]; exact nonempty) firstHeader.symm
      (emptyHeader outside)
    have types : (2 : UInt8) = 1 := congrArg (fun bytes => bytes.getD 6 0) same
    exact absurd types (by decide)

/-- The condition under which a file may be reused, for a file that is cut somewhere. -/
theorem keeps_iff_clean (cutAt : CutAt value file fragments next count) :
    Keeps value file (assembled fragments).records <-> Clean value file := by
  have inBlock : (reopen file).blockOffset ≤ kBlockSize :=
    le_of_lt (Nat.mod_lt _ (by decide))
  have tail := cutAt.tornTail_eq
  have keeps_of (chunked : ∀ chunk chunks,
      Chained (reopen file).blockOffset (chunk :: chunks) -> ∃ reports, readLog value
        (file ++ chunkBytes value (reopen file).blockOffset (chunk :: chunks)) =
          some ((assembled fragments).records ++ (chunk :: chunks).map Chunk.record, reports)) :
      Keeps value file (assembled fragments).records := by
    intro appended
    rcases addRecords_chunks value appended (reopen file) inBlock with
      ⟨chunks, finish, _, recordsEq, chained, _, added, _⟩
    cases chunks with
    | nil =>
      rcases (cutAt.readLog_iff _).mpr rfl with ⟨reports, read⟩
      refine ⟨_, reports, added, ?_⟩
      rw [<- recordsEq, map_nil, append_nil, chunkBytes, append_nil]
      exact read
    | cons chunk chunks =>
      rcases chunked chunk chunks chained with ⟨reports, read⟩
      rw [recordsEq] at read
      exact ⟨_, reports, added, read⟩
  by_cases between : count ≤ (trailer (finish fragments)).length
  · refine ⟨fun _ => Or.inl ?_, fun _ => keeps_of fun chunk chunks chained => ?_⟩
    · rw [tail, shown, Nat.sub_eq_zero_of_le between, take_zero]
    · exact (cutAt.read_between between chained _).mpr rfl
  · have torn := Nat.lt_of_not_le between
    rcases cutAt.blockOffset_torn torn with ⟨offset, cut, _⟩
    have size : (tornTail file).2.length = shown fragments count := by
      rw [tail, length_take_fragmentBytes cut]
    have end_eq : (tornTail file).1 + (tornTail file).2.length = (reopen file).blockOffset := by
      rw [size, offset, tail]
    have nonempty : (tornTail file).2 ≠ [] := by
      intro empty
      rw [empty, length_nil] at size
      exact (Nat.sub_pos_of_lt torn).ne size
    unfold Clean
    rw [or_iff_right nonempty]
    constructor
    · intro keeps
      by_cases wide : (reopen file).blockOffset + kHeaderSize ≤ kBlockSize
      · exact absurd keeps fun keeps => cutAt.loses_wide torn wide keeps
      · refine ⟨by omega, fun revived => ?_⟩
        rcases addRecords_chunks value [[]] (reopen file) inBlock with
          ⟨chunks, finish, _, recordsEq, chained, _, added, _⟩
        rcases keeps [[]] with ⟨_, reports, same, read⟩
        rw [added] at same
        cases same
        cases chunks with
        | nil => cases recordsEq
        | cons chunk chunks =>
          rcases cutAt.read_filled torn (by omega) chained with ⟨_, cases_, iff⟩
          have result := (iff _).mp ⟨reports, read⟩
          rcases cases_ with ⟨_, _, extra⟩ | ⟨dead, _⟩
          · rw [extra, recordsEq, append_assoc] at result
            have sizes := congrArg length (append_cancel_left result)
            cases sizes
          · exact dead revived
    · rintro ⟨narrow, dead⟩
      refine keeps_of fun chunk chunks chained => ?_
      rcases cutAt.read_filled torn narrow chained with ⟨_, ⟨revived, _⟩ | ⟨_, same⟩, iff⟩
      · exact absurd revived dead
      · exact (iff _).mpr (by rw [same])

end CutAt

variable (value) in
/-- For every file that a writer leaves behind when it is cut anywhere: all records that are
appended after a reopen are read back behind the records of the file exactly when the file
is clean. -/
theorem reuse_keeps_iff (records : List Bytes) :
    ∃ writer, addRecords value ⟨[], 0⟩ records = .ok writer ∧ forall length,
        ((forall appended, ∃ after reports,
          addRecords value (reopen (writer.dest.take length)) appended = .ok after ∧
            readLog value after.dest =
              some (recordsWithin value ⟨[], 0⟩ records length ++ appended, reports)) <->
          Clean value (writer.dest.take length)) := by
  rcases addRecords_chunks value records ⟨[], 0⟩ (Nat.zero_le _) with
    ⟨_, _, _, _, _, _, written, _⟩
  refine ⟨_, written, fun length => ?_⟩
  rcases cutAt_take value written length with ⟨_, _, _, cutAt⟩
  have found := (cutAt.readLog_iff _).mp ⟨_, readLog_take_of_addRecords value written length⟩
  rw [found]
  exact cutAt.keeps_iff_clean

/-- A checksum for the counterexample. -/
def byteSum (bytes : Bytes) : BitVec 32 :=
  BitVec.ofNat 32 (bytes.foldl (fun sum byte => sum + byte.toNat) 0)

/-- A log cut one byte before its end, and a record that is lost behind it. -/
theorem reuse_loses_record : ∃ writer after, addRecords byteSum ⟨[], 0⟩ [[1, 2]] = .ok writer ∧
      addRecords byteSum (reopen (writer.dest.take 8)) [[3]] = .ok after ∧
      recordsWithin byteSum ⟨[], 0⟩ [[1, 2]] 8 = [] ∧
      readLog byteSum after.dest = some ([], [(16, "checksum mismatch")]) :=
  ⟨⟨header byteSum .fullType [1, 2] ++ [1, 2], 9⟩,
    ⟨header byteSum .fullType [1, 2] ++ [1] ++ header byteSum .fullType [3] ++ [3], 16⟩,
    by decide +kernel, by decide +kernel, by decide +kernel, by decide +kernel⟩

end

end Log
end Doux
