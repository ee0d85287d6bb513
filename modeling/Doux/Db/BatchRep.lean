import Doux.Db.WriteBatch
import Doux.Log.RoundTrip

namespace Doux
namespace Db

open Foundation Util List Log

/-!
# The bytes of a write batch

`rep_` has the header and the records of a batch in one string, which is also the record of
the batch in a log.  The operations work on the string, and recovery reads it again.
-/

namespace Update

def data : Update -> Bytes
  | put key value => putLengthPrefixedSlice key.bytes ++ putLengthPrefixedSlice value
  | delete key => putLengthPrefixedSlice key.bytes

def encode (update : Update) : Bytes := UInt8.ofNat update.type.code :: update.data

/-- The lengths of its strings have 32 bits. -/
def Fits (update : Update) : Prop :=
  update.key.bytes.length < 2 ^ 32 ∧ update.value.length < 2 ^ 32

end Update

namespace BatchRep

def count (rep : Bytes) : Int := (BitVec.ofNat 32 (decodeFixed32 (rep.drop 8))).toInt

def setCount (rep : Bytes) (n : Int) : Bytes :=
  rep.take 8 ++ (encodeFixed32 (BitVec.ofInt 32 n).toNat ++ rep.drop kHeader)

def setSequence (rep : Bytes) (sequence : BitVec 64) : Bytes :=
  encodeFixed64 sequence.toNat ++ rep.drop 8

/-- `WriteBatch::Put` and `WriteBatch::Delete`. -/
def add (rep : Bytes) (update : Update) : Bytes := setCount rep (count rep + 1) ++ update.encode

def append (dst src : Bytes) : Bytes := setCount dst (count dst + count src) ++ src.drop kHeader

/-- The operation behind a tag, and the input that is left. -/
def readUpdate (tag : UInt8) (input : Bytes) : Except String (Update × Bytes) :=
  match ValueType.ofCode tag.toNat with
  | some .value => (do
      let (key, input) <- getLengthPrefixedSlice input
      let (value, input) <- getLengthPrefixedSlice input
      return (Update.put ⟨key⟩ value, input)).elim (.error "bad WriteBatch Put") .ok
  | some .deletion => (do
      let (key, input) <- getLengthPrefixedSlice input
      return (Update.delete ⟨key⟩, input)).elim (.error "bad WriteBatch Delete") .ok
  | none => .error "unknown WriteBatch tag"

/-- The loop of `Iterate`, of which every pass takes a byte off the input. -/
def iterateLoop : Nat -> Bytes -> List Update × Status
  | passes + 1, tag :: input =>
    match readUpdate tag input with
    | .error text => ([], .corruption text)
    | .ok (update, input) => (iterateLoop passes input).map (update :: ·) id
  | _, _ => ([], .ok)

/-- `Iterate`: what the handler is given, and the status. -/
def iterate (rep : Bytes) : List Update × Status :=
  if rep.length < kHeader then ([], .corruption "malformed WriteBatch (too small)")
  else
    let found := iterateLoop rep.length (rep.drop kHeader)
    if found.2 = .ok ∧ (found.1.length : Int) ≠ count rep then
      (found.1, .corruption "WriteBatch has wrong count")
    else found

def insertInto (rep : Bytes) : List (Nat × Update) × Status :=
  (iterate rep).map (WriteBatch.numbered (decodeFixed64 rep)) id

theorem readUpdate_data {update : Update} (fits : update.Fits) (rest : Bytes) :
    readUpdate (UInt8.ofNat update.type.code) (update.data ++ rest) = .ok (update, rest) := by
  cases update with
  | put key value =>
    have shortKey : key.bytes.length < 2 ^ 32 := fits.1
    have shortValue : value.length < 2 ^ 32 := fits.2
    simp [readUpdate, Update.type, ValueType.code, ValueType.ofCode, Update.data,
      getLengthPrefixedSlice_put shortKey, getLengthPrefixedSlice_put shortValue]
  | delete key =>
    have shortKey : key.bytes.length < 2 ^ 32 := fits.1
    simp [readUpdate, Update.type, ValueType.code, ValueType.ofCode, Update.data,
      getLengthPrefixedSlice_put shortKey]

theorem iterateLoop_flatMap {updates : List Update} (fits : ∀ update ∈ updates, update.Fits)
    {passes : Nat} (enough : (updates.flatMap Update.encode).length ≤ passes) :
    iterateLoop passes (updates.flatMap Update.encode) = (updates, .ok) := by
  induction updates generalizing passes with
  | nil => cases passes <;> rfl
  | cons update updates ih =>
    rcases forall_mem_cons.mp fits with ⟨first, later⟩
    rw [flatMap_cons, Update.encode, cons_append] at enough ⊢
    rw [length_cons, length_append] at enough
    cases passes with
    | zero => omega
    | succ passes =>
      rw [iterateLoop, readUpdate_data first]
      simp [ih later (by omega : _ ≤ passes)]

end BatchRep

/-- The calls by which a batch is made. -/
inductive BatchCalls where
  | clear
  | add (calls : BatchCalls) (update : Update) (fits : update.Fits)
  | append (dst src : BatchCalls)
  | setSequence (calls : BatchCalls) (sequence : BitVec 64)

/-- What they do to `rep_`. -/
def BatchCalls.rep : BatchCalls -> Bytes
  | clear => replicate kHeader 0
  | add calls update _ => BatchRep.add calls.rep update
  | append dst src => BatchRep.append dst.rep src.rep
  | setSequence calls sequence => BatchRep.setSequence calls.rep sequence

namespace WriteBatch

def add (batch : WriteBatch) (update : Update) : WriteBatch :=
  { batch.setCount (batch.count + 1) with records := batch.records ++ [update] }

/-- What they do to the records. -/
def ofCalls : BatchCalls -> WriteBatch
  | .clear => empty
  | .add calls update _ => (ofCalls calls).add update
  | .append dst src => (ofCalls dst).append (ofCalls src)
  | .setSequence calls sequence => (ofCalls calls).setSequence sequence.toNat

def rep (batch : WriteBatch) : Bytes :=
  encodeFixed64 batch.sequence ++ (encodeFixed32 batch.countField.toNat ++
    batch.records.flatMap Update.encode)

section
variable (batch : WriteBatch)

theorem drop_rep : batch.rep.drop kHeader = batch.records.flatMap Update.encode := by
  simp [rep, kHeader, drop_append, encodeFixed64, encodeFixed32, length_littleEndian]

theorem count_rep : BatchRep.count batch.rep = batch.count := by
  simp [BatchRep.count, rep, encodeFixed64, length_littleEndian, decodeFixed32_encodeFixed32, count]

theorem setCount_rep (n : Int) : BatchRep.setCount batch.rep n = (batch.setCount n).rep := by
  rw [BatchRep.setCount, drop_rep]
  simp [rep, encodeFixed64, length_littleEndian, setCount]

end

/-- The calls do to the string what they do to the records. -/
theorem rep_ofCalls (calls : BatchCalls) : calls.rep = (ofCalls calls).rep ∧
    (ofCalls calls).sequence < 2 ^ 64 ∧ ∀ update ∈ (ofCalls calls).records, update.Fits := by
  induction calls with
  | clear => exact ⟨by decide, by decide, nofun⟩
  | add calls update fits ih =>
    refine ⟨?_, ih.2.1, forall_mem_concat.mpr ⟨ih.2.2, fits⟩⟩
    rw [BatchCalls.rep, BatchRep.add, ih.1, count_rep, setCount_rep]
    simp [rep, ofCalls, WriteBatch.add, setCount]
  | append dst src first second =>
    refine ⟨?_, first.2.1, forall_mem_append.mpr ⟨first.2.2, second.2.2⟩⟩
    rw [BatchCalls.rep, BatchRep.append, first.1, second.1, count_rep, count_rep, setCount_rep,
      drop_rep]
    simp [rep, ofCalls, WriteBatch.append, setCount]
  | setSequence calls sequence ih =>
    refine ⟨?_, sequence.isLt, ih.2.2⟩
    simp [BatchCalls.rep, ih.1, BatchRep.setSequence, rep, ofCalls, WriteBatch.setSequence,
      encodeFixed64, length_littleEndian]

theorem insertInto_rep (calls : BatchCalls) :
    BatchRep.insertInto calls.rep = (ofCalls calls).insertInto := by
  rcases rep_ofCalls calls with ⟨equal, small, fits⟩
  rw [equal]
  generalize ofCalls calls = batch at small fits
  have long : kHeader ≤ batch.rep.length := by
    simp [rep, kHeader, encodeFixed64, encodeFixed32, length_littleEndian, <- add_assoc]
  have sequence : decodeFixed64 batch.rep = batch.sequence :=
    (ofLittleEndian_take 8 _ _).trans (Nat.mod_eq_of_lt small)
  have loop := BatchRep.iterateLoop_flatMap fits
    (drop_rep batch ▸ (drop_sublist _ batch.rep).length_le)
  simp only [BatchRep.insertInto, BatchRep.iterate, long.not_gt, drop_rep, loop, sequence,
    count_rep, insertInto]
  split_ifs <;> simp_all

end WriteBatch

/-- A log of batches that is cut anywhere, as a crash may leave it, gives back the operations
of the first batches, each of them whole, and without a cut those of all batches. -/
theorem readLog_batches (value : Bytes -> BitVec 32) (batches : List BatchCalls) :
    ∃ writer, addRecords value ⟨[], 0⟩ (batches.map BatchCalls.rep) = .ok writer ∧
      forall length, ∃ kept, kept <+: batches ∧ (writer.dest.length ≤ length -> kept = batches) ∧
        ∃ records, readLog value (writer.dest.take length) = some (records, []) ∧
          records.map BatchRep.insertInto =
            kept.map (fun calls => (WriteBatch.ofCalls calls).insertInto) := by
  rcases addRecords_chunks value (batches.map BatchCalls.rep) ⟨[], 0⟩ (Nat.zero_le _) with
    ⟨_, _, _, _, _, _, written, _⟩
  refine ⟨_, written, fun length => ?_⟩
  rcases chunks_of_addRecords value written with ⟨chunks, chained, dest, records, -, -⟩
  have front := (chunksWithin_front value chunks 0 length).map Chunk.record
  rw [records, prefix_iff_eq_take, <- map_take, length_map] at front
  refine ⟨batches.take (chunksWithin value 0 chunks length).length, take_prefix _ _, ?_, _,
    dest ▸ readLog_chunks value chunks chained length, ?_⟩
  · intro whole
    rw [chunksWithin_all value chunks 0 length (dest ▸ whole), take_of_length_le]
    rw [<- length_map BatchCalls.rep, <- records, length_map]
  · rw [front, map_map]
    exact map_congr_left (fun calls _ => WriteBatch.insertInto_rep calls)

end Db
end Doux
