import Doux.Foundation.RefCount
import Doux.Db.Locking
import Doux.Db.ObsoleteFiles

namespace Doux
namespace Db

open Foundation Util

/-!
# What background work holds on to

A background job keeps files from being deleted in two ways.  The numbers of the files
it writes are in `pending_outputs_` and `pending_voutputs_`, and the compaction refers to
the version it reads from.  This module follows both through all the functions of
background work, next to the mutex, while other threads take and give up references and
file numbers whenever the mutex is free.

Everything is given back at the end of a job, with one exception.  The compactions that
`DoVCompactionWork` triggers are never cleaned up: `TriggerLSMTreeCompaction` deletes the
state of the compaction without erasing its outputs from the pending sets, and the
compaction itself, with its reference, is never deleted.
-/

/-- What other threads do while the mutex is free: readers and iterators refer to the
current version and give the reference up later, and writers start new logs. -/
inductive Other where
  | acquire
  | release (index : Nat)
  | newFileNumber

/-- The environment of a background job: besides the answers to its questions the
versions that `LogAndApply` builds and the other threads.  `picksNothing` tells that
`PickVCompaction` returns a compaction without inputs. -/
structure Surroundings extends Environment where
  built : Nat -> Version Bytes Bytes
  others : Nat -> List Other
  picksNothing : Nat -> Bool

/-- The part of the database that keeps files alive.  `readers` are the versions that
other threads refer to. -/
structure Holdings where
  mutex : Mutex
  versions : Arena (Version Bytes Bytes)
  current : Nat
  readers : List Nat
  nextFileNumber : Nat
  pendingOutputs : Finset Nat
  pendingVOutputs : Finset Nat

abbrev Job (α : Type) := Checked Stop Holdings α

namespace Holdings

/-- A step that only uses the mutex and the environment. -/
def onMutex {α : Type} (work : Work α) : Job α := fun holdings =>
  match work holdings.mutex with
  | .ok (answer, mutex) => .ok (answer, { holdings with mutex })
  | .error reason => .error reason

/-- Do something under a condition. -/
def doIf {α : Type} (condition : Bool) (job : Job α) (otherwise : α) : Job α :=
  if condition then job else pure otherwise

/-- `Version::Ref` of the current version. -/
def refCurrent : Job Nat := fun holdings =>
  .ok (holdings.current,
    { holdings with versions := holdings.versions.ref holdings.current })

def unref (version : Nat) : Job Unit := fun holdings =>
  match holdings.versions.unref version with
  | some versions => .ok ((), { holdings with versions })
  | none => .error (.abort "refs_ >= 1")

/-- The version becomes the current one, with the reference of the version set. -/
def makeCurrent (version : Version Bytes Bytes) : Job Unit := fun holdings =>
  .ok ((), { holdings with
    versions := holdings.versions.append version
    current := holdings.versions.next })

def appendVersion (version : Version Bytes Bytes) : Job Unit := fun holdings =>
  (do unref holdings.current
      makeCurrent version : Job Unit) holdings

def newFileNumber : Job Nat := fun holdings =>
  .ok (holdings.nextFileNumber,
    { holdings with nextFileNumber := holdings.nextFileNumber + 1 })

def modify (change : Holdings -> Holdings) : Job Unit := fun holdings =>
  .ok ((), change holdings)

/-- A reader goes away and gives its reference up. -/
def release (index : Nat) : Job Unit := fun holdings =>
  match holdings.readers[index]? with
  | some version => unref version
      { holdings with readers := holdings.readers.eraseIdx index }
  | none => .ok ((), holdings)

/-- One action of another thread. -/
def other : Other -> Job Unit
  | .acquire => do
    let version <- refCurrent
    modify (fun holdings => { holdings with readers := version :: holdings.readers })
  | .release index => release index
  | .newFileNumber => do
    let _ <- newFileNumber
    pure ()

def others : List Other -> Job Unit
  | [] => pure ()
  | action :: actions => do
    other action
    others actions

section

variable (around : Surroundings)

def inquire (question : Question) : Job Bool := onMutex (ask around.toEnvironment question)

/-- Other threads run while the mutex is free. -/
def interleave : Job Unit := fun holdings =>
  others (around.others holdings.mutex.asked) holdings

def newVersion : Job (Version Bytes Bytes) := fun holdings =>
  .ok (around.built holdings.mutex.asked, holdings)

/-- `VersionSet::LogAndApply`.  The builder of the new version refers to the current one
while it lives. -/
def logAndApply : Job Bool := do
  let base <- refCurrent
  let version <- newVersion around
  unref base
  onMutex unlock
  interleave around
  let ok <- inquire around .logAndApply
  onMutex lock
  if ok then do
    appendVersion version
    return true
  else return false

def writeLevel0Table : Job Bool := do
  let number <- newFileNumber
  modify (fun holdings => { holdings with
    pendingOutputs := insert number holdings.pendingOutputs
    pendingVOutputs := insert number holdings.pendingVOutputs })
  onMutex unlock
  interleave around
  let ok <- inquire around .buildTable
  onMutex lock
  modify (fun holdings => { holdings with
    pendingOutputs := holdings.pendingOutputs.erase number
    pendingVOutputs := holdings.pendingVOutputs.erase number })
  return ok

def compactMemTable : Job Unit := do
  let base <- refCurrent
  let written <- writeLevel0Table around
  unref base
  if written then do
    let stopping <- inquire around .shuttingDown
    if stopping then pure ()
    else do
      let _ <- logAndApply around
      pure ()
  else throw (.abort "edit.new_files_[0]")

/-- The start of a pass of `DoCompactionWork`. -/
def flushWaiting : Job Unit := do
  interleave around
  let waits <- inquire around .hasImm
  if waits then do
    onMutex lock
    let present <- inquire around .immExists
    doIf present (compactMemTable around) ()
    onMutex unlock
  else pure ()

/-- The state of a compaction: its progress and the numbers of its files. -/
structure CompactionState where
  progress : Progress
  outputs : List Nat
  voutputs : List Nat

def openCompactionOutputFile (compact : CompactionState) : Job CompactionState := do
  interleave around
  onMutex lock
  let number <- newFileNumber
  modify (fun holdings => { holdings with
    pendingOutputs := insert number holdings.pendingOutputs })
  onMutex unlock
  let ok <- inquire around .openOutput
  return { compact with progress := ⟨ok, ok⟩, outputs := compact.outputs ++ [number] }

def openCompactionVOutputFile (compact : CompactionState) : Job CompactionState := do
  interleave around
  onMutex lock
  let number <- newFileNumber
  modify (fun holdings => { holdings with
    pendingVOutputs := insert number holdings.pendingVOutputs })
  onMutex unlock
  let ok <- inquire around .openVOutput
  return { compact with progress := ⟨ok, ok⟩, voutputs := compact.voutputs ++ [number] }

/-- `FinishCompactionOutputFile` and `FinishCompactionVOutputFile`, if a file is open. -/
def finishFile (finishes : Question) (compact : CompactionState) : Job CompactionState := do
  if compact.progress.builder then do
    let ok <- inquire around finishes
    return { compact with progress := ⟨ok, false⟩ }
  else return compact

/-- Add an entry to the output, which is opened before if necessary and finished
afterwards if it is large enough. -/
def writeEntry (opens : CompactionState -> Job CompactionState) (finishes : Question)
    (compact : CompactionState) : Job CompactionState := do
  let opened <- doIf (!compact.progress.builder) (opens compact) compact
  if opened.progress.builder then do
    let full <- inquire around .fileFull
    if full then do
      let ok <- inquire around finishes
      return { opened with progress := ⟨ok, false⟩ }
    else return opened
  else return opened

def cleanupCompaction (compact : CompactionState) : Job Unit :=
  modify (fun holdings => { holdings with
    pendingOutputs := holdings.pendingOutputs \ compact.outputs.toFinset
    pendingVOutputs := holdings.pendingVOutputs \ compact.voutputs.toFinset })

def cleanupVCompaction (compact : CompactionState) : Job Unit :=
  modify (fun holdings => { holdings with
    pendingVOutputs := holdings.pendingVOutputs \ compact.voutputs.toFinset })

/-- One entry of the merged inputs.  With `MOD` 9 it is only remembered. -/
def compactEntry (mod : Nat) (compact : CompactionState) : Job CompactionState := do
  flushWaiting around
  let stops <- inquire around .shouldStopBefore
  let compact <- doIf stops (finishFile around .finishOutput compact) compact
  if compact.progress.broken then return compact
  else do
    let drops <- inquire around .dropsEntry
    if drops || mod = 9 then return compact
    else writeEntry around (openCompactionOutputFile around) .finishOutput compact

/-- The loop over the merged inputs. -/
def compactLoop (mod : Nat) : Nat -> CompactionState -> Job CompactionState
  | 0, compact => pure compact
  | entries + 1, compact => do
    let stopping <- inquire around .shuttingDown
    if stopping then return compact
    else do
      let compact <- compactEntry around mod compact
      if compact.progress.broken then return compact else compactLoop mod entries compact

/-- The loop over the entries of one value file, with `MOD` 9. -/
def copyValues : Nat -> CompactionState -> Job CompactionState
  | 0, compact => pure compact
  | entries + 1, compact => do
    let stopping <- inquire around .shuttingDown
    if stopping then return compact
    else do
      let wanted <- inquire around .valueWanted
      if wanted then do
        let compact <-
          writeEntry around (openCompactionVOutputFile around) .finishVOutput compact
        if compact.progress.broken then return compact else copyValues entries compact
      else copyValues entries compact

/-- The loop over the value files. -/
def copyInputs : List Nat -> CompactionState -> Job CompactionState
  | [], compact => pure compact
  | entries :: vinputs, compact => do
    let compact <- copyValues around entries compact
    copyInputs vinputs compact

/-- The loop over the remembered keys, with `MOD` 9. -/
def writePending : Nat -> CompactionState -> Job CompactionState
  | 0, compact => pure compact
  | entries + 1, compact => do
    let compact <-
      writeEntry around (openCompactionOutputFile around) .finishOutput compact
    if compact.progress.broken then return compact else writePending entries compact

/-- The end of `DoCompactionWork`.  After a failure it returns at once. -/
def finishWork (compact : CompactionState) : Job (Bool × CompactionState) := do
  let compact <-
    doIf compact.progress.status (finishFile around .finishOutput compact) compact
  if compact.progress.status then do
    let readable <- inquire around .inputStatus
    interleave around
    onMutex lock
    let ok <- doIf readable (logAndApply around) false
    return (ok, compact)
  else return (false, compact)

def doCompactionWork (mod : Nat) : Job (Bool × CompactionState) := do
  onMutex unlock
  let entries <- onMutex (countEntries around.toEnvironment)
  let compact <- compactLoop around mod entries ⟨⟨true, false⟩, [], []⟩
  let stopping <- doIf compact.progress.status (inquire around .shuttingDown) false
  let progress : Progress := ⟨compact.progress.status && !stopping, compact.progress.builder⟩
  if mod = 9 then do
    let vinputs <- onMutex (countVInputs around.toEnvironment)
    let copied <-
      copyInputs around vinputs { compact with progress := ⟨progress.status, false⟩ }
    let copied <- finishFile around .finishVOutput copied
    if copied.progress.status then do
      let pending <- onMutex (countEntries around.toEnvironment)
      let written <- writePending around pending
        { copied with progress := ⟨true, progress.builder⟩ }
      finishWork around written
    else return (false, copied)
  else finishWork around { compact with progress }

/-- `TriggerLSMTreeCompaction`.  The compaction refers to the current version; neither
its outputs nor this reference are given back. -/
def triggerLSMTreeCompaction (mod : Nat) : Job Bool := do
  let picks <- inquire around .picksCompaction
  if picks then do
    let _inputVersion <- refCurrent
    let result <- doCompactionWork around mod
    return result.1
  else return true

/-- The compactions of the key tree that follow a compaction of value files. -/
def triggerLoop (mod : Nat) : Nat -> Job Bool
  | 0 => pure true
  | count + 1 => do
    let ok <- triggerLSMTreeCompaction around mod
    if ok then triggerLoop mod count else return false

def doVCompactionWork (mod : Nat) : Job (Bool × CompactionState) := do
  onMutex unlock
  let read <- inquire around .inputsRead
  let left <- inquire around .valuesLeft
  if left then do
    let opened <- openCompactionVOutputFile around ⟨⟨true, false⟩, [], []⟩
    if opened.progress.status then do
      let finished <- inquire around .finishVOutput
      interleave around
      onMutex lock
      let installed <- doIf finished (logAndApply around) false
      let decoupled <- inquire around .decoupledCompaction
      if installed && mod = 10 && !decoupled then do
        let ok <- triggerLoop around mod 100
        return (ok, opened)
      else return (installed, opened)
    else return (false, opened)
  else do
    interleave around
    onMutex lock
    let ok <- doIf read (logAndApply around) false
    return (ok, ⟨⟨true, false⟩, [], []⟩)

/-! ## `BackgroundCall` -/

/-- `Compaction::ReleaseInputs`; the result is the version that is still referred to. -/
def releaseInputs : Option Nat -> Job (Option Nat)
  | some inputVersion => do
    unref inputVersion
    return none
  | none => return none

def deleteCompaction : Option Nat -> Job Unit
  | some inputVersion => unref inputVersion
  | none => pure ()

/-- The part of `BackgroundCompaction` about the key tree. -/
def compactKeys (mod : Nat) : Job Unit := do
  let picks <- inquire around .picksCompaction
  if picks then do
    let inputVersion <- refCurrent
    let moves <- inquire around .isTrivialMove
    if moves && mod ≠ 9 then do
      let _ <- logAndApply around
      deleteCompaction (some inputVersion)
    else do
      let result <- doCompactionWork around mod
      cleanupCompaction result.2
      let released <- releaseInputs (some inputVersion)
      deleteCompaction released
  else pure ()

/-- A compaction without inputs is deleted at once. -/
def dropEmptyCompaction : Job Unit := fun holdings =>
  (if around.picksNothing holdings.mutex.asked then do
      let inputVersion <- refCurrent
      deleteCompaction (some inputVersion)
    else pure () : Job Unit) holdings

/-- The part of `BackgroundCompaction` about the value files. -/
def compactVFiles (mod : Nat) : Job Unit := do
  if mod = 10 ∨ mod = 13 then do
    let picks <- inquire around .picksVCompaction
    if picks then do
      let inputVersion <- refCurrent
      let result <- doVCompactionWork around mod
      cleanupVCompaction result.2
      let released <- releaseInputs (some inputVersion)
      deleteCompaction released
    else dropEmptyCompaction around
  else pure ()

def backgroundCompaction (mod : Nat) : Job Unit := do
  let waits <- inquire around .immExists
  if waits then compactMemTable around
  else do
    compactKeys around mod
    compactVFiles around mod

def backgroundCall (mod : Nat) : Job Unit := do
  onMutex lock
  let stopping <- inquire around .shuttingDown
  let failed <- inquire around .bgError
  doIf (!stopping && !failed) (backgroundCompaction around mod) ()
  onMutex unlock

end

end Holdings

end Db
end Doux
