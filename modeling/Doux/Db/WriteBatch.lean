import Doux.Db.Format

namespace Doux
namespace Db

open Foundation Util List

/-!
# Write batches

A batch is a header, which holds the sequence number of its first operation and a
32-bit count, and the records of its operations.  Here the records are kept as a list,
next to the two header fields as the code stores them.
-/

/-- An operation of a batch. -/
inductive Update where
  | put (key : UserKey) (value : Bytes)
  | delete (key : UserKey)

namespace Update

def key : Update -> UserKey
  | put key _ => key
  | delete key => key

def type : Update -> ValueType
  | put _ _ => .value
  | delete _ => .deletion

/-- The value given to `MemTable::Add`. -/
def value : Update -> Bytes
  | put _ value => value
  | delete _ => []

/-- The bytes that `WriteBatch::Put` and `WriteBatch::Delete` append. -/
def recordSize : Update -> Nat
  | put key value =>
    1 + (putLengthPrefixedSlice key.bytes).length + (putLengthPrefixedSlice value).length
  | delete key => 1 + (putLengthPrefixedSlice key.bytes).length

theorem recordSize_pos (update : Update) : 0 < update.recordSize := by
  cases update with
  | put key value => simp only [recordSize]; omega
  | delete key => simp only [recordSize]; omega

end Update

inductive Status where
  | ok
  | corruption (text : String)
  | ioError (text : String)
deriving DecidableEq

structure WriteBatch where
  sequence : Nat
  countField : BitVec 32
  records : List Update

def kHeader : Nat := 12

namespace WriteBatch

/-- `Clear`. -/
def empty : WriteBatch := ⟨0, 0, []⟩

def count (batch : WriteBatch) : Int := batch.countField.toInt

def setCount (batch : WriteBatch) (n : Int) : WriteBatch :=
  { batch with countField := BitVec.ofInt 32 n }

def setSequence (batch : WriteBatch) (sequence : Nat) : WriteBatch :=
  { batch with sequence := sequence }

def byteSize (batch : WriteBatch) : Nat :=
  kHeader + (batch.records.map Update.recordSize).sum

def append (dst src : WriteBatch) : WriteBatch :=
  let counted := dst.setCount (dst.count + src.count)
  { counted with records := counted.records ++ src.records }

/-- The operations with their sequence numbers, the first of which is given. -/
def numbered (sequence : Nat) : List Update -> List (Nat × Update)
  | [] => []
  | update :: updates => (sequence, update) :: numbered (sequence + 1) updates

/-- `InsertInto`: what it adds to the memtable, and the status of `Iterate`. -/
def insertInto (batch : WriteBatch) : List (Nat × Update) × Status :=
  (numbered batch.sequence batch.records,
    if (batch.records.length : Int) ≠ batch.count then .corruption "WriteBatch has wrong count"
    else .ok)

/-- The count is the number of records.  `Put` and `Delete` keep this for every batch
whose number of records is an `int`. -/
def WellFormed (batch : WriteBatch) : Prop := batch.count = batch.records.length

theorem wellFormed_empty : empty.WellFormed := rfl

theorem length_records_le (batch : WriteBatch) : batch.records.length ≤ batch.byteSize := by
  have each : batch.records.length ≤ (batch.records.map Update.recordSize).sum := by
    induction batch.records with
    | nil => exact le_refl _
    | cons update updates ih =>
      have positive := update.recordSize_pos
      rw [length_cons, map_cons, sum_cons]
      omega
  rw [byteSize]
  omega

theorem count_setCount (batch : WriteBatch) {n : Nat} (small : n < 2 ^ 31) :
    (batch.setCount n).count = n := by
  simp only [count, setCount]
  rw [BitVec.toInt_ofInt, Int.bmod_eq_of_le (by omega) (by omega)]

theorem append_wellFormed {dst src : WriteBatch} (first : dst.WellFormed) (second : src.WellFormed)
    (small : dst.records.length + src.records.length < 2 ^ 31) : (dst.append src).WellFormed := by
  have sum : dst.count + src.count = ((dst.records.length + src.records.length : Nat) : Int) := by
    rw [first, second, Nat.cast_add]
  have counted := count_setCount dst small
  rw [<- sum] at counted
  change (dst.setCount (dst.count + src.count)).count = ((dst.records ++ src.records).length : Int)
  rw [counted, sum, length_append]

theorem insertInto_of_wellFormed {batch : WriteBatch} (wellFormed : batch.WellFormed) :
    batch.insertInto = (numbered batch.sequence batch.records, .ok) := by
  rw [insertInto, if_neg (fun differ => differ wellFormed.symm)]

theorem numbered_append (sequence : Nat) (first second : List Update) :
    numbered sequence (first ++ second) =
      numbered sequence first ++ numbered (sequence + first.length) second := by
  induction first generalizing sequence with
  | nil => rfl
  | cons update first ih =>
    rw [cons_append, numbered, numbered, ih, length_cons, cons_append, add_assoc, add_comm 1]

end WriteBatch

end Db
end Doux
