import Doux.Foundation.Control
import Doux.Util.Coding

namespace Doux
namespace Log

open Foundation Util List

/-!
# Writing a log

`db/log_writer.cc` splits a record into fragments that do not cross a block
boundary.  A fragment has a header of seven bytes: masked checksum, length and
type.  A block whose rest is too short for a header is filled with zeros.

The checksum of a fragment covers its type byte and its payload; it is the
parameter `value`, an arbitrary function of these bytes.  `layout` describes a
log without reference to the writer's loop: the bytes of a sequence of
fragments placed one after the other from a block offset.  The main result is
that `AddRecord` appends the layout of a correct fragmentation of the record.
-/

def kBlockSize : Nat := 32768

def kHeaderSize : Nat := 7

inductive RecordType where
  | zeroType
  | fullType
  | firstType
  | middleType
  | lastType
deriving DecidableEq, Repr

def RecordType.toByte : RecordType -> UInt8
  | .zeroType => 0
  | .fullType => 1
  | .firstType => 2
  | .middleType => 3
  | .lastType => 4

def kMaskDelta : BitVec 32 := 0xa282ead8#32

def mask (crc : BitVec 32) : BitVec 32 := ((crc >>> 15) ||| (crc <<< 17)) + kMaskDelta

def unmask (maskedCrc : BitVec 32) : BitVec 32 :=
  let rot := maskedCrc - kMaskDelta
  (rot >>> 17) ||| (rot <<< 15)

theorem unmask_mask (crc : BitVec 32) : unmask (mask crc) = crc := by
  unfold unmask mask
  rw [BitVec.add_sub_cancel]
  apply BitVec.eq_of_getLsbD_eq
  intro i bound
  simp only [BitVec.getLsbD_or, BitVec.getLsbD_ushiftRight, BitVec.getLsbD_shiftLeft, bound]
  by_cases low : i < 15
  · have inside : 17 + i < 32 := by omega
    have high : crc.getLsbD (15 + (17 + i)) = false := BitVec.getLsbD_of_ge _ _ (by omega)
    simp [low, inside, high]
  · have position : 15 + (i - 15) = i := by omega
    have below : i - 15 < 17 := by omega
    have high : crc.getLsbD (15 + (17 + i)) = false := BitVec.getLsbD_of_ge _ _ (by omega)
    simp [low, position, below, high]

theorem mask_unmask (maskedCrc : BitVec 32) : mask (unmask maskedCrc) = maskedCrc := by
  have : Finite (BitVec 32) := Finite.of_injective BitVec.toFin fun _ _ => BitVec.eq_of_toFin_eq
  have injective : Function.Injective mask := Function.LeftInverse.injective unmask_mask
  rcases Finite.surjective_of_injective injective maskedCrc with ⟨_, same⟩
  rw [<- same, unmask_mask]

/-- The file written so far and the offset in its last block. -/
structure Writer where
  dest : Bytes
  blockOffset : Nat
deriving DecidableEq

section
variable (value : Bytes -> BitVec 32)

def header (type : RecordType) (fragment : Bytes) : Bytes :=
  encodeFixed32 (mask (value (type.toByte :: fragment))).toNat ++
    [UInt8.ofNat (fragment.length % 256), UInt8.ofNat (fragment.length / 256), type.toByte]

/-- `Writer::EmitPhysicalRecord`. -/
def emitPhysicalRecord (writer : Writer) (type : RecordType) (fragment : Bytes) :
    Except String Writer := do
  assertThat (fragment.length ≤ 0xffff) "length <= 0xffff"
  assertThat (writer.blockOffset + kHeaderSize + fragment.length ≤ kBlockSize)
    "block_offset_ + kHeaderSize + length <= kBlockSize"
  return ⟨writer.dest ++ (header value type fragment ++ fragment),
    writer.blockOffset + kHeaderSize + fragment.length⟩

/-- The type of a fragment from its place in the record. -/
def fragmentType (begin end_ : Bool) : RecordType :=
  if begin && end_ then .fullType
  else if begin then .firstType
  else if end_ then .lastType
  else .middleType

/-- The variables of the loop in `AddRecord`. -/
structure AddRecordState where
  begin : Bool
  left : Bytes
  writer : Writer

/-- Switch to a new block when no header fits into the present one. -/
def fillTrailer (writer : Writer) : Writer :=
  if kBlockSize - writer.blockOffset < kHeaderSize then
    ⟨writer.dest ++ List.replicate (kBlockSize - writer.blockOffset) 0, 0⟩
  else
    writer

/-- The number of payload bytes that go into the present block. -/
def fragmentLength (blockOffset : Nat) (left : Bytes) : Nat :=
  let avail := kBlockSize - blockOffset - kHeaderSize
  if left.length < avail then left.length else avail

/-- One fragment of `AddRecord`. -/
def addRecordPass (state : AddRecordState) : Except String AddRecordState := do
  assertThat (state.writer.blockOffset ≤ kBlockSize) "leftover >= 0"
  let writer := fillTrailer state.writer
  assertThat (writer.blockOffset + kHeaderSize ≤ kBlockSize)
    "kBlockSize - block_offset_ - kHeaderSize >= 0"
  let count := fragmentLength writer.blockOffset state.left
  let end_ := state.left.length == count
  let writer <- emitPhysicalRecord value writer (fragmentType state.begin end_)
    (state.left.take count)
  return ⟨false, state.left.drop count, writer⟩

def addRecordBody (state : AddRecordState) : LoopStep AddRecordState (Except String Writer) :=
  match addRecordPass value state with
  | .error text => .done (.error text)
  | .ok next => if next.left.length > 0 then .again next else .done (.ok next.writer)

/-- `Writer::AddRecord`.  A pass that writes no payload is followed by one in
a fresh block, so the number of passes is bounded by the record's length. -/
def addRecord (writer : Writer) (record : Bytes) : Except String Writer :=
  match runLoop (addRecordBody value) (2 * record.length + 2) ⟨true, record, writer⟩ with
  | some result => result
  | none => .error "pass bound exceeded"

/-- Write records to an empty file. -/
def addRecords (writer : Writer) : List Bytes -> Except String Writer
  | [] => .ok writer
  | record :: records => do
    let writer <- addRecord value writer record
    addRecords writer records

end

structure Fragment where
  type : RecordType
  payload : Bytes

/-- The offset at which the next header stands. -/
def headerOffset (offset : Nat) : Nat :=
  if kBlockSize - offset < kHeaderSize then 0 else offset

/-- The zeros before the next header. -/
def trailer (offset : Nat) : Bytes :=
  if kBlockSize - offset < kHeaderSize then List.replicate (kBlockSize - offset) 0 else []

def nextOffset (offset : Nat) (fragment : Fragment) : Nat :=
  headerOffset offset + kHeaderSize + fragment.payload.length

/-- The fragments of a record, from its remaining bytes; `begin` tells whether
the first of them starts the record. -/
inductive Fragments : Bool -> Bytes -> List Fragment -> Prop
  | final (begin : Bool) (payload : Bytes) :
      Fragments begin payload [⟨fragmentType begin true, payload⟩]
  | more (begin : Bool) (payload rest : Bytes) (fragments : List Fragment)
      (later : Fragments false rest fragments) :
      Fragments begin (payload ++ rest) (⟨fragmentType begin false, payload⟩ :: fragments)

section
variable (value : Bytes -> BitVec 32)

/-- The bytes of one fragment with its trailer and header. -/
def placed (offset : Nat) (fragment : Fragment) : Bytes :=
  trailer offset ++ (header value fragment.type fragment.payload ++ fragment.payload)

def layout : Nat -> List Fragment -> Bytes
  | _, [] => []
  | offset, fragment :: fragments =>
    placed value offset fragment ++ layout (nextOffset offset fragment) fragments

/-- The offset after consecutive fragments. -/
def layoutEnd : Nat -> List Fragment -> Nat
  | offset, [] => offset
  | offset, fragment :: fragments => layoutEnd (nextOffset offset fragment) fragments

/-- Every fragment fits into its block, and has a type that is written. -/
def Fits : Nat -> List Fragment -> Prop
  | _, [] => True
  | offset, fragment :: fragments =>
    fragment.type ≠ .zeroType ∧ nextOffset offset fragment ≤ kBlockSize ∧
      Fits (nextOffset offset fragment) fragments

/-- The fragments come in the order of a writer, which is inside a record or not: a record
is finished before the next one starts, and only the end of a block interrupts it. -/
def Sequenced : Bool -> Nat -> List Fragment -> Prop
  | _, _, [] => True
  | inside, offset, fragment :: fragments =>
    ∃ end_ : Bool, fragment.type = fragmentType (!inside) end_ ∧
      (end_ = false -> nextOffset offset fragment = kBlockSize) ∧
      Sequenced (!end_) (nextOffset offset fragment) fragments

theorem length_header (type : RecordType) (fragment : Bytes) :
    (header value type fragment).length = kHeaderSize := by
  simp [header, encodeFixed32, kHeaderSize]

theorem layout_append (offset : Nat) (front back : List Fragment) :
    layout value offset (front ++ back) =
      layout value offset front ++ layout value (layoutEnd offset front) back := by
  induction front generalizing offset with
  | nil => rfl
  | cons fragment front ih =>
    rw [cons_append, layout, layout, layoutEnd, ih, append_assoc]

variable {offset : Nat}

theorem fits_append {front back : List Fragment} :
    Fits offset (front ++ back) <-> Fits offset front ∧ Fits (layoutEnd offset front) back := by
  induction front generalizing offset with
  | nil => simp [Fits, layoutEnd]
  | cons fragment front ih =>
    rw [cons_append, Fits, Fits, layoutEnd, ih, and_assoc, and_assoc]

theorem Fragments.sequenced_append {begin : Bool} {record : Bytes} {front back : List Fragment}
    (split : Fragments begin record front) (sequenced : Sequenced (!begin) offset front)
    (later : Sequenced false (layoutEnd offset front) back) :
    Sequenced (!begin) offset (front ++ back) := by
  induction split generalizing offset with
  | final begin payload => exact ⟨true, by rw [Bool.not_not], nofun, later⟩
  | more begin payload rest fragments _ ih =>
    rcases sequenced with ⟨end_, type, fills, others⟩
    cases end_ with
    | true =>
      cases begin <;> cases type
    | false => exact ⟨false, type, fills, ih others later⟩

theorem headerOffset_le : headerOffset offset + kHeaderSize ≤ kBlockSize := by
  unfold headerOffset
  split <;> (unfold kBlockSize kHeaderSize at *; omega)

/-! ## `AddRecord` writes a layout -/

/-- The payload length of the next fragment after an offset. -/
def payloadLength (offset : Nat) (left : Bytes) : Nat :=
  fragmentLength (headerOffset offset) left

theorem fillTrailer_eq (writer : Writer) : fillTrailer writer =
      ⟨writer.dest ++ trailer writer.blockOffset, headerOffset writer.blockOffset⟩ := by
  unfold fillTrailer trailer headerOffset
  split
  · rfl
  · rw [append_nil]

def passFragment (state : AddRecordState) : Fragment :=
  let count := payloadLength state.writer.blockOffset state.left
  ⟨fragmentType state.begin (state.left.length == count), state.left.take count⟩

variable (state : AddRecordState)

theorem nextOffset_passFragment_le :
    nextOffset state.writer.blockOffset (passFragment state) ≤ kBlockSize := by
  have fits := @headerOffset_le state.writer.blockOffset
  have count : (state.left.take (payloadLength state.writer.blockOffset state.left)).length ≤
      kBlockSize - headerOffset state.writer.blockOffset - kHeaderSize := by
    rw [length_take]
    unfold payloadLength fragmentLength
    simp only
    split <;> omega
  change headerOffset state.writer.blockOffset + kHeaderSize +
    (state.left.take (payloadLength state.writer.blockOffset state.left)).length ≤ kBlockSize
  omega

/-- A fragment that does not finish its record fills its block. -/
theorem nextOffset_passFragment_eq
    (more : payloadLength state.writer.blockOffset state.left < state.left.length) :
    nextOffset state.writer.blockOffset (passFragment state) = kBlockSize := by
  have fits := @headerOffset_le state.writer.blockOffset
  have count : payloadLength state.writer.blockOffset state.left =
      kBlockSize - headerOffset state.writer.blockOffset - kHeaderSize := by
    unfold payloadLength fragmentLength at more ⊢
    simp only at more ⊢
    split at more
    · omega
    · next full => rw [if_neg full]
  change headerOffset state.writer.blockOffset + kHeaderSize +
    (state.left.take (payloadLength state.writer.blockOffset state.left)).length = kBlockSize
  rw [length_take]
  omega

theorem emitPhysicalRecord_eq {writer : Writer} {fragment : Fragment}
    (room : writer.blockOffset + kHeaderSize + fragment.payload.length ≤ kBlockSize) :
    emitPhysicalRecord value writer fragment.type fragment.payload =
      .ok ⟨writer.dest ++ (header value fragment.type fragment.payload ++ fragment.payload),
        writer.blockOffset + kHeaderSize + fragment.payload.length⟩ := by
  have short : fragment.payload.length ≤ 0xffff := by
    unfold kBlockSize kHeaderSize at room
    omega
  unfold emitPhysicalRecord
  rw [assertThat_of short, assertThat_of room]
  rfl

theorem addRecordPass_eq {state : AddRecordState} (offset : state.writer.blockOffset ≤ kBlockSize) :
    addRecordPass value state = .ok ⟨false,
      state.left.drop (payloadLength state.writer.blockOffset state.left),
      ⟨state.writer.dest ++ placed value state.writer.blockOffset (passFragment state),
        nextOffset state.writer.blockOffset (passFragment state)⟩⟩ := by
  have emitted := @emitPhysicalRecord_eq value
    ⟨state.writer.dest ++ trailer state.writer.blockOffset, headerOffset state.writer.blockOffset⟩
    (passFragment state) (nextOffset_passFragment_le state)
  simp only [passFragment, payloadLength] at emitted
  unfold addRecordPass
  rw [assertThat_of offset, fillTrailer_eq]
  simp only [bind, Except.bind, assertThat_of headerOffset_le, pure, Except.pure]
  rw [emitted]
  simp [placed, nextOffset, passFragment, payloadLength]

theorem payloadLength_le (offset : Nat) (left : Bytes) :
    payloadLength offset left ≤ left.length := by
  unfold payloadLength fragmentLength
  simp only
  split <;> omega

/-- A pass without payload ends its block, so the next one has payload. -/
theorem payloadLength_pos_of_zero {left : Bytes} (nonempty : 0 < left.length)
    (zero : payloadLength offset left = 0) :
    0 < payloadLength (headerOffset offset + kHeaderSize + 0) left := by
  have room := @headerOffset_le offset
  have full : headerOffset offset + kHeaderSize + 0 = kBlockSize := by
    unfold payloadLength fragmentLength at zero
    simp only at zero
    split at zero <;> omega
  have fresh : headerOffset kBlockSize = 0 := by decide
  rw [full, payloadLength, fresh]
  unfold fragmentLength kBlockSize kHeaderSize
  simp only
  split <;> omega

/-- The number of passes that a state can still need. -/
def passBound (state : AddRecordState) : Nat :=
  2 * state.left.length + if payloadLength state.writer.blockOffset state.left = 0 then 1 else 0

theorem fragmentType_ne_zeroType (begin end_ : Bool) : fragmentType begin end_ ≠ .zeroType := by
  cases begin <;> cases end_ <;> decide

/-- The loop of `AddRecord` writes a fragmentation of what is left. -/
theorem addRecordBody_layout (offset : state.writer.blockOffset ≤ kBlockSize) :
    ∃ count last fragments, count ≤ passBound state ∧
      Passes (addRecordBody value) count state last ∧ addRecordBody value last = .done (.ok
        ⟨state.writer.dest ++ layout value state.writer.blockOffset fragments,
          layoutEnd state.writer.blockOffset fragments⟩) ∧
      Fragments state.begin state.left fragments ∧ Fits state.writer.blockOffset fragments ∧
      Sequenced (!state.begin) state.writer.blockOffset fragments := by
  induction boundEq : passBound state using Nat.strong_induction_on generalizing state with
  | _ bound ih =>
    have pass := addRecordPass_eq value offset
    have room := nextOffset_passFragment_le state
    have count := payloadLength_le state.writer.blockOffset state.left
    by_cases last : state.left.length = payloadLength state.writer.blockOffset state.left
    · -- The rest of the record fits into this block.
      have whole : passFragment state = ⟨fragmentType state.begin true, state.left⟩ := by
        unfold passFragment
        rw [← last]
        simp
      refine ⟨0, state, [passFragment state], Nat.zero_le _, fun fuel => by rw [Nat.zero_add],
        ?_, ?_, ?_, ?_⟩
      · unfold addRecordBody
        rw [pass]
        simp only
        rw [if_neg (by rw [length_drop]; omega)]
        simp [layout, layoutEnd]
      · rw [whole]
        exact .final state.begin state.left
      · exact ⟨by rw [whole]; exact fragmentType_ne_zeroType _ _, room, trivial⟩
      · exact ⟨true, by rw [whole, Bool.not_not], nofun, trivial⟩
    · let next : AddRecordState := ⟨false,
        state.left.drop (payloadLength state.writer.blockOffset state.left),
        ⟨state.writer.dest ++ placed value state.writer.blockOffset (passFragment state),
          nextOffset state.writer.blockOffset (passFragment state)⟩⟩
      have again : addRecordBody value state = .again next := by
        unfold addRecordBody
        rw [pass]
        simp only
        rw [if_pos (by rw [length_drop]; omega)]
      have smaller : passBound next < bound := by
        rw [← boundEq]
        unfold passBound
        by_cases zero : payloadLength state.writer.blockOffset state.left = 0
        · have positive := payloadLength_pos_of_zero (by omega) zero
          have nextLeft : next.left = state.left := by simp [next, zero]
          have nextBlock : next.writer.blockOffset =
              headerOffset state.writer.blockOffset + kHeaderSize + 0 := by
            simp [next, nextOffset, passFragment, zero]
          rw [nextLeft, nextBlock, if_pos zero, if_neg (by omega)]
          omega
        · have shorter : next.left.length = state.left.length -
              payloadLength state.writer.blockOffset state.left := by simp [next]
          split <;> omega
      rcases ih _ smaller next room rfl with
        ⟨passes, final, fragments, _, run, leaves, split, fits, sequenced⟩
      have type : (passFragment state).type = fragmentType state.begin false := by
        unfold passFragment
        simp only
        rw [beq_eq_false_iff_ne.mpr last]
      refine ⟨1 + passes, final, passFragment state :: fragments, by omega,
        (Passes.one again).trans run, ?_, ?_, ?_, ?_⟩
      · rw [leaves, layout, layoutEnd, ← append_assoc]
      · have parts : state.left =
            (passFragment state).payload ++ next.left := (take_append_drop _ _).symm
        have shape : passFragment state =
            ⟨fragmentType state.begin false, (passFragment state).payload⟩ := by
          rw [← type]
        rw [parts, shape]
        exact .more state.begin _ _ _ split
      · refine ⟨?_, room, fits⟩
        exact fragmentType_ne_zeroType _ _
      · refine ⟨false, by rw [type, Bool.not_not], fun _ => ?_, sequenced⟩
        exact nextOffset_passFragment_eq state (lt_of_le_of_ne count (Ne.symm last))

/-- `AddRecord` never fails and appends a fragmentation of its record. -/
theorem addRecord_layout (writer : Writer) (record : Bytes)
    (offset : writer.blockOffset ≤ kBlockSize) :
    ∃ fragments, Fragments true record fragments ∧ Fits writer.blockOffset fragments ∧
      Sequenced false writer.blockOffset fragments ∧ addRecord value writer record =
        .ok ⟨writer.dest ++ layout value writer.blockOffset fragments,
          layoutEnd writer.blockOffset fragments⟩ := by
  rcases addRecordBody_layout value ⟨true, record, writer⟩ offset with
    ⟨count, _, fragments, bound, passes, leaves, split, fits, sequenced⟩
  refine ⟨fragments, split, fits, sequenced, ?_⟩
  have enough : count < 2 * record.length + 2 := by
    unfold passBound at bound
    simp only at bound
    split at bound <;> omega
  unfold addRecord
  rw [passes.returns leaves enough]

theorem addRecords_append (writer : Writer) (first second : List Bytes) :
    addRecords value writer (first ++ second) =
      (addRecords value writer first).bind (fun writer => addRecords value writer second) := by
  induction first generalizing writer with
  | nil => rfl
  | cons record records ih =>
    rw [cons_append, addRecords, addRecords]
    cases added : addRecord value writer record with
    | error text => rfl
    | ok next => exact ih next

end

end Log
end Doux
