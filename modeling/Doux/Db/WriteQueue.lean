import Mathlib.Algebra.BigOperators.Fin
import Doux.Db.WriteBatch

namespace Doux
namespace Db

open Foundation List

/-!
# The writer queue

Every call of `DBImpl::Write` puts a writer at the back of `writers_`.  The writer at
the front leads: it makes room in the memtable, merges the batches of writers behind
it into a group, and writes the group to the log and into the memtable without the
mutex.  It then takes the members of the group off the queue and returns.  Members
other than the leader find themselves done when they wake up.

Between two steps of one writer any other writer may take a step, as far as the mutex
allows.  Each section that runs under the mutex is one step, and so are the log append
and the memtable insert.  A writer that waits on its condition variable may also wake
up without a signal.

With `MOD` 7 and 8 a group goes to the memtable only.
-/

/-- The arguments of one call of `DBImpl::Write`.  Without a batch it forces a switch of
the memtable. -/
structure WriteRequest where
  batch : Option WriteBatch
  sync : Bool
  wellFormed : ∀ updates ∈ batch, updates.WellFormed

namespace WriteRequest

def records (request : WriteRequest) : List Update := request.batch.elim [] WriteBatch.records

end WriteRequest

/-- What the leader keeps while the mutex is released: the batch that it writes, whether
that is `tmp_batch_`, `last_writer`, and `last_sequence`. -/
structure BatchGroup (W : Type) where
  batch : WriteBatch
  inTmp : Bool
  lastWriter : W
  lastSequence : Nat

/-- Where a writer stands in `DBImpl::Write`. -/
inductive Place (W : Type) where
  | idle
  /-- At the test of the waiting loop. -/
  | awake
  /-- In `w.cv.Wait()`. -/
  | asleep
  /-- In `MakeRoomForWrite`. -/
  | makingRoom
  | logging (group : BatchGroup W)
  | inserting (group : BatchGroup W)
  /-- About to take the group off the queue. -/
  | finishing (group : Option (BatchGroup W)) (status : Status)
  | returned (status : Status)

/-- `w.done` and `w.status` are one field, which the leader sets. -/
structure Writer (W : Type) where
  place : Place W
  done : Option Status

namespace Writer

variable {W : Type}

def new : Writer W := ⟨.idle, none⟩

/-- `cv.Signal()`. -/
def signal (writer : Writer W) : Writer W :=
  match writer.place with
  | .asleep => { writer with place := .awake }
  | _ => writer

end Writer

/-- The shared state.  `groups` and `returns` are history: the groups taken off the
queue with their status, and the calls that have returned. -/
structure WriteQueue (W : Type) where
  writers : W -> Writer W
  queue : List W
  tmpBatch : WriteBatch
  lastSequence : Nat
  log : List WriteBatch
  mem : List (Nat × Update)
  groups : List (List W × Status)
  returns : List (W × Status)

/-- The modes in which `Write` appends a group to the log. -/
def WritesLog (mod : Nat) : Prop := mod ≤ 6 ∨ mod ≥ 9

instance (mod : Nat) : Decidable (WritesLog mod) := inferInstanceAs (Decidable (_ ∨ _))

inductive WriteAction (W : Type) where
  | call (w : W)
  | test (w : W)
  | wake (w : W)
  | makeRoom (w : W) (status : Status)
  | append (w : W) (status : Status)
  | insert (w : W)
  | finish (w : W)

section
variable {W : Type}

/-- The loop of `BuildBatchGroup` over the writers behind the first one. -/
def growGroup (requests : W -> WriteRequest) (sync : Bool) (maxSize : Nat) (tmp : WriteBatch) :
    List W -> BatchGroup W -> Nat -> Except String (BatchGroup W)
  | [], group, _ => .ok group
  | w :: rest, group, size =>
    if (requests w).sync = true ∧ sync = false then .ok group
    else
      match (requests w).batch with
      | none => growGroup requests sync maxSize tmp rest { group with lastWriter := w } size
      | some updates =>
        if size + updates.byteSize > maxSize then .ok group
        else if group.inTmp = true then
          growGroup requests sync maxSize tmp rest
            ⟨group.batch.append updates, true, w, group.lastSequence⟩ (size + updates.byteSize)
        else do
          assertThat (tmp.count = 0) "WriteBatchInternal::Count(result) == 0"
          growGroup requests sync maxSize tmp rest
            ⟨(tmp.append group.batch).append updates, true, w, group.lastSequence⟩
            (size + updates.byteSize)

/-- The bound on the size of a group whose first batch has the given size. -/
def maxGroupSize (size : Nat) : Nat :=
  if size ≤ 128 * 1024 then size + 128 * 1024 else 1024 * 1024

/-- `BuildBatchGroup`, followed by `SetSequence` and the new `last_sequence`. -/
def buildBatchGroup (requests : W -> WriteRequest) (tmp : WriteBatch) (lastSequence : Nat) :
    List W -> Except String (BatchGroup W)
  | [] => .error "!writers_.empty()"
  | first :: rest =>
    match (requests first).batch with
    | none => .error "result != nullptr"
    | some updates => do
      let group <- growGroup requests (requests first).sync (maxGroupSize updates.byteSize) tmp
        rest ⟨updates, false, first, lastSequence⟩ updates.byteSize
      return { group with
        batch := group.batch.setSequence (lastSequence + 1)
        lastSequence := (lastSequence + group.batch.count).toNat }

namespace WriteQueue

variable [DecidableEq W]

def new (lastSequence : Nat) : WriteQueue W :=
  ⟨fun _ => .new, [], .empty, lastSequence, [], [], [], []⟩

def setPlace (state : WriteQueue W) (w : W) (place : Place W) : WriteQueue W :=
  { state with
    writers := Function.update state.writers w { state.writers w with place := place } }

/-- The call returns. -/
def giveBack (state : WriteQueue W) (w : W) (status : Status) : WriteQueue W :=
  { state.setPlace w (.returned status) with returns := state.returns ++ [(w, status)] }

/-- A writer that leaves the queue is done, unless it is the leader itself. -/
def markDone (leader : W) (status : Status) (writers : W -> Writer W) (ready : W) : W -> Writer W :=
  if ready = leader then writers
  else Function.update writers ready (Writer.mk (writers ready).place (some status)).signal

/-- The loop at the end of `Write`, which takes writers off the queue up to the last
one of the group. -/
def popReady (leader last : W) (status : Status) :
    List W -> (W -> Writer W) -> Except String (List W × (W -> Writer W))
  | [], _ => .error "writers_.front()"
  | ready :: rest, writers =>
    if ready = last then .ok (rest, markDone leader status writers ready)
    else popReady leader last status rest (markDone leader status writers ready)

def signalHead (state : WriteQueue W) : WriteQueue W :=
  match state.queue with
  | [] => state
  | w :: _ => { state with writers := Function.update state.writers w (state.writers w).signal }

/-- Clear the temporary batch and set the last sequence number. -/
def settle (state : WriteQueue W) : Option (BatchGroup W) -> WriteQueue W
  | none => state
  | some group => { state with
      tmpBatch := if group.inTmp = true then .empty else state.tmpBatch
      lastSequence := group.lastSequence }

variable (requests : W -> WriteRequest)

def call (state : WriteQueue W) (w : W) : Except String (WriteQueue W) :=
  match (state.writers w).place with
  | .idle => .ok { state.setPlace w .awake with queue := state.queue ++ [w] }
  | _ => .error "not enabled"

/-- The test of the waiting loop, and what follows it. -/
def test (state : WriteQueue W) (w : W) : Except String (WriteQueue W) :=
  match (state.writers w).place with
  | .awake =>
    match (state.writers w).done with
    | some status => .ok (state.giveBack w status)
    | none =>
      if state.queue.head? = some w then .ok (state.setPlace w .makingRoom)
      else .ok (state.setPlace w .asleep)
  | _ => .error "not enabled"

def wake (state : WriteQueue W) (w : W) : Except String (WriteQueue W) :=
  match (state.writers w).place with
  | .asleep => .ok (state.setPlace w .awake)
  | _ => .error "not enabled"

/-- `MakeRoomForWrite` returns, and the leader builds its group. -/
def makeRoom (state : WriteQueue W) (w : W) (status : Status) : Except String (WriteQueue W) :=
  match (state.writers w).place with
  | .makingRoom =>
    if status = .ok ∧ (requests w).batch ≠ none then do
      let group <- buildBatchGroup requests state.tmpBatch state.lastSequence state.queue
      return { state.setPlace w (.logging group) with
        tmpBatch := if group.inTmp = true then group.batch else state.tmpBatch }
    else .ok (state.setPlace w (.finishing none status))
  | _ => .error "not enabled"

/-- `AddRecord` and `Sync`, where the mode has them; where it does not, nothing can fail.  What
a failed append leaves in the file is not modelled. -/
def append (mod : Nat) (state : WriteQueue W) (w : W) (status : Status) :
    Except String (WriteQueue W) :=
  match (state.writers w).place with
  | .logging group =>
    if status = .ok ∨ ¬ WritesLog mod then
      .ok { state.setPlace w (.inserting group) with
        log := state.log ++ if WritesLog mod then [group.batch] else [] }
    else .ok (state.setPlace w (.finishing (some group) status))
  | _ => .error "not enabled"

def insert (state : WriteQueue W) (w : W) : Except String (WriteQueue W) :=
  match (state.writers w).place with
  | .inserting group =>
    .ok { state.setPlace w (.finishing (some group) group.batch.insertInto.2) with
      mem := state.mem ++ group.batch.insertInto.1 }
  | _ => .error "not enabled"

def finish (state : WriteQueue W) (w : W) : Except String (WriteQueue W) :=
  match (state.writers w).place with
  | .finishing group status => do
    let popped <- popReady w (group.elim w BatchGroup.lastWriter) status state.queue state.writers
    let after := { state.settle group with
      queue := popped.1
      writers := popped.2
      groups := state.groups ++
        [(state.queue.take (state.queue.length - popped.1.length), status)] }
    return after.signalHead.giveBack w status
  | _ => .error "not enabled"

def step (mod : Nat) (state : WriteQueue W) : WriteAction W -> Except String (WriteQueue W)
  | .call w => state.call w
  | .test w => state.test w
  | .wake w => state.wake w
  | .makeRoom w status => state.makeRoom requests w status
  | .append w status => state.append mod w status
  | .insert w => state.insert w
  | .finish w => state.finish w

/-- An interleaving of the steps of all calls, from a queue that is empty. -/
def run (mod lastSequence : Nat) (actions : List (WriteAction W)) : Except String (WriteQueue W) :=
  actions.foldlM (step requests mod) (new lastSequence)

end WriteQueue

/-- The calls in the order in which they enter the queue. -/
def arrivals (actions : List (WriteAction W)) : List W :=
  actions.filterMap fun
    | .call w => some w
    | _ => none

/-- The step is not a wake-up without a signal. -/
def WriteAction.own : WriteAction W -> Bool
  | .wake _ => false
  | _ => true

/-- The step meets no I/O error. -/
def WriteAction.NoError : WriteAction W -> Prop
  | .makeRoom _ status => status = .ok
  | .append _ status => status = .ok
  | _ => True

/-! ## What each step can do -/

namespace WriteQueue

variable [DecidableEq W] {requests : W -> WriteRequest} {state next : WriteQueue W} {w : W}
  {status : Status}

theorem call_eq_ok (called : state.call w = .ok next) : (state.writers w).place = .idle ∧
      next = { state.setPlace w .awake with queue := state.queue ++ [w] } := by
  unfold call at called
  split at called
  · exact ⟨by assumption, (Except.ok.inj called).symm⟩
  · cases called

theorem test_eq_ok (tested : state.test w = .ok next) : (state.writers w).place = .awake ∧
      ((∃ status, (state.writers w).done = some status ∧ next = state.giveBack w status) ∨
       ((state.writers w).done = none ∧ state.queue.head? = some w ∧
          next = state.setPlace w .makingRoom) ∨
       ((state.writers w).done = none ∧ state.queue.head? ≠ some w ∧
          next = state.setPlace w .asleep)) := by
  unfold test at tested
  split at tested
  · refine ⟨by assumption, ?_⟩
    split at tested
    · next status done => exact Or.inl ⟨status, done, (Except.ok.inj tested).symm⟩
    · next done =>
        split at tested
        · next isHead => exact Or.inr (Or.inl ⟨done, isHead, (Except.ok.inj tested).symm⟩)
        · next notHead => exact Or.inr (Or.inr ⟨done, notHead, (Except.ok.inj tested).symm⟩)
  · cases tested

theorem wake_eq_ok (woken : state.wake w = .ok next) :
    (state.writers w).place = .asleep ∧ next = state.setPlace w .awake := by
  unfold wake at woken
  split at woken
  · exact ⟨by assumption, (Except.ok.inj woken).symm⟩
  · cases woken

theorem makeRoom_eq_ok (made : state.makeRoom requests w status = .ok next) :
    (state.writers w).place = .makingRoom ∧ ((status = .ok ∧ (requests w).batch ≠ none ∧ ∃ group,
          buildBatchGroup requests state.tmpBatch state.lastSequence state.queue = .ok group ∧
          next = { state.setPlace w (.logging group) with
            tmpBatch := if group.inTmp = true then group.batch else state.tmpBatch }) ∨
       (¬ (status = .ok ∧ (requests w).batch ≠ none) ∧
          next = state.setPlace w (.finishing none status))) := by
  unfold makeRoom at made
  split at made
  · refine ⟨by assumption, ?_⟩
    split at made
    · next builds =>
        rcases bind_eq_ok.mp made with ⟨group, built, equal⟩
        exact Or.inl ⟨builds.1, builds.2, group, built, (Except.ok.inj equal).symm⟩
    · next fails => exact Or.inr ⟨fails, (Except.ok.inj made).symm⟩
  · cases made

theorem append_eq_ok {mod : Nat} (appended : state.append mod w status = .ok next) :
    ∃ group, (state.writers w).place = .logging group ∧ (((status = .ok ∨ ¬ WritesLog mod) ∧
          next = { state.setPlace w (.inserting group) with
            log := state.log ++ if WritesLog mod then [group.batch] else [] }) ∨
       (status ≠ .ok ∧ next = state.setPlace w (.finishing (some group) status))) := by
  unfold append at appended
  split at appended
  · next group place =>
      refine ⟨group, place, ?_⟩
      split at appended
      · next goesOn => exact Or.inl ⟨goesOn, (Except.ok.inj appended).symm⟩
      · next fails => exact Or.inr ⟨fun isOk => fails (Or.inl isOk), (Except.ok.inj appended).symm⟩
  · cases appended

theorem insert_eq_ok (inserted : state.insert w = .ok next) :
    ∃ group, (state.writers w).place = .inserting group ∧
      next = { state.setPlace w (.finishing (some group) group.batch.insertInto.2) with
        mem := state.mem ++ group.batch.insertInto.1 } := by
  unfold insert at inserted
  split at inserted
  · next group place => exact ⟨group, place, (Except.ok.inj inserted).symm⟩
  · cases inserted

end WriteQueue

namespace BatchGroup

/-- The members of the group are the first writers of the queue, from the leader to
the last writer.  No sync request is a member of a group whose leader is not sync. -/
structure Takes (requests : W -> WriteRequest) (queue : List W) (leader : W)
    (group : BatchGroup W) (members : List W) : Prop where
  first : members.head? = some leader
  last : members.getLast? = some group.lastWriter
  taken : members <+: queue
  records : group.batch.records = members.flatMap (fun w => (requests w).records)
  wellFormed : group.batch.WellFormed
  sync : ∀ w ∈ members, (requests w).sync = true -> (requests leader).sync = true

theorem Takes.snoc {requests : W -> WriteRequest} {before rest : List W} {leader w : W}
    {group : BatchGroup W} (takes : group.Takes requests (before ++ w :: rest) leader before)
    (next : BatchGroup W) (joins : ¬ ((requests w).sync = true ∧ (requests leader).sync = false))
    (last : next.lastWriter = w)
    (records : next.batch.records = group.batch.records ++ (requests w).records)
    (wellFormed : next.batch.WellFormed) :
    next.Takes requests (before ++ w :: rest) leader (before ++ [w]) where
  first := by
    rw [head?_append, takes.first]
    rfl
  last := by rw [getLast?_append, last]; rfl
  taken := ⟨rest, by rw [append_assoc]; rfl⟩
  records := by rw [records, takes.records, flatMap_append, flatMap_singleton]
  wellFormed := wellFormed
  sync := by
    intro member isMember isSync
    rcases mem_concat.mp isMember with earlier | rfl
    · exact takes.sync member earlier isSync
    · by_contra notSync
      exact joins ⟨isSync, by simpa using notSync⟩

end BatchGroup

variable {requests : W -> WriteRequest} {leader : W} {tmp : WriteBatch}

/-- A group that is not the leader's own batch stays below the size bound, so its count
is an `int`. -/
theorem growGroup_takes {maxSize : Nat} (cleared : tmp = .empty) (bound : maxSize ≤ 1024 * 1024)
    {before rest : List W} {group : BatchGroup W} {size : Nat}
    (takes : group.Takes requests (before ++ rest) leader before)
    (small : group.batch.records.length ≤ size) :
    ∃ grown members, growGroup requests (requests leader).sync maxSize tmp rest group size =
      .ok grown ∧ grown.Takes requests (before ++ rest) leader members := by
  induction rest generalizing before group size with
  | nil => exact ⟨group, before, rfl, takes⟩
  | cons w rest ih =>
    have regroup : before ++ w :: rest = (before ++ [w]) ++ rest := by
      rw [append_assoc]
      rfl
    rw [growGroup]
    by_cases stops : (requests w).sync = true ∧ (requests leader).sync = false
    · rw [if_pos stops]
      exact ⟨group, before, rfl, takes⟩
    · rw [if_neg stops]
      cases isBatch : (requests w).batch with
      | none =>
        have records : (requests w).records = [] := by rw [WriteRequest.records, isBatch]; rfl
        have joined := takes.snoc { group with lastWriter := w } stops rfl
          (by rw [records, append_nil]) takes.wellFormed
        rw [regroup] at joined ⊢
        exact ih joined small
      | some updates =>
        have records : (requests w).records = updates.records := by
          rw [WriteRequest.records, isBatch]
          rfl
        have counted := (requests w).wellFormed updates isBatch
        have length := updates.length_records_le
        dsimp only
        by_cases large : size + updates.byteSize > maxSize
        · rw [if_pos large]
          exact ⟨group, before, rfl, takes⟩
        · have appended (dst : WriteBatch) (same : dst.records = group.batch.records)
              (isCount : dst.WellFormed) :
              BatchGroup.Takes requests (before ++ w :: rest) leader
                ⟨dst.append updates, true, w, group.lastSequence⟩ (before ++ [w]) := by
            refine takes.snoc _ stops rfl ?_ ?_
            · rw [records, <- same]
              rfl
            · exact WriteBatch.append_wellFormed isCount counted (by rw [same]; omega)
          have fits (dst : WriteBatch) (same : dst.records = group.batch.records) :
              (dst.append updates).records.length ≤ size + updates.byteSize := by
            change (dst.records ++ updates.records).length ≤ _
            rw [same, length_append]
            omega
          have copied : (tmp.append group.batch).WellFormed := by
            rw [cleared]
            exact WriteBatch.append_wellFormed WriteBatch.wellFormed_empty takes.wellFormed
              (by change 0 + _ < _; omega)
          have copy : (tmp.append group.batch).records = group.batch.records := by
            rw [cleared]
            rfl
          have empty : tmp.count = 0 := by
            rw [cleared]
            rfl
          rw [if_neg large, assertThat_of empty]
          rw [regroup] at appended ⊢
          by_cases inTmp : group.inTmp = true
          · rw [if_pos inTmp]
            exact ih (appended _ rfl takes.wellFormed) (fits _ rfl)
          · rw [if_neg inTmp]
            exact ih (appended _ copy copied) (fits _ copy)

theorem maxGroupSize_le (size : Nat) : maxGroupSize size ≤ 1024 * 1024 := by
  unfold maxGroupSize
  split <;> omega

theorem buildBatchGroup_takes
    (cleared : tmp = .empty) {queue : List W} (head : queue.head? = some leader)
    (some : (requests leader).batch ≠ none) (lastSequence : Nat) :
    ∃ group members, buildBatchGroup requests tmp lastSequence queue = .ok group ∧
      group.Takes requests queue leader members ∧ group.batch.sequence = lastSequence + 1 ∧
      group.lastSequence = lastSequence + group.batch.records.length := by
  cases queue with
  | nil => cases head
  | cons first rest =>
    cases head
    rcases Option.ne_none_iff_exists'.mp some with ⟨updates, isBatch⟩
    have start : BatchGroup.Takes requests ([leader] ++ rest) leader
        ⟨updates, false, leader, lastSequence⟩ [leader] := by
      refine ⟨rfl, rfl, ⟨rest, rfl⟩, ?_, (requests leader).wellFormed updates isBatch, ?_⟩
      · rw [flatMap_singleton, WriteRequest.records, isBatch]
        rfl
      · exact forall_mem_singleton.mpr id
    rcases growGroup_takes cleared (maxGroupSize_le updates.byteSize) start
      updates.length_records_le with ⟨grown, members, built, takes⟩
    refine ⟨{ grown with
      batch := grown.batch.setSequence (lastSequence + 1)
      lastSequence := (lastSequence + grown.batch.count).toNat }, members, ?_, ?_, rfl, ?_⟩
    · rw [buildBatchGroup, isBatch]
      exact bind_eq_ok.mpr ⟨grown, built, rfl⟩
    · exact { takes with }
    · have counted : grown.batch.count = grown.batch.records.length := takes.wellFormed
      change (lastSequence + grown.batch.count).toNat = lastSequence + grown.batch.records.length
      omega

end
end Db
end Doux
