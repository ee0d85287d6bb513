import Doux.Foundation.Triple

namespace Doux
namespace Db

open Foundation

/-!
# The mutex along background work

`BackgroundCall` takes the mutex of the database and releases it at its end.  In
between, flushes, compactions and the manifest release it and take it again.  This
module follows the mutex through all these functions.

Only the control flow is kept: what the functions find out about files, keys and
memtables is answered by an environment, which may answer in any way.  Taking a mutex
that is held, or releasing one that is not, stops the run.  `AssertHeld` does nothing
in this port, so a caller notices a lost mutex only when it releases it.
-/

/-- What the functions ask their environment. -/
inductive Question where
  | shuttingDown
  | bgError
  | hasImm
  | immExists
  | buildTable
  | logAndApply
  | shouldStopBefore
  | dropsEntry
  | fileFull
  | openOutput
  | finishOutput
  | openVOutput
  | finishVOutput
  | valueWanted
  | inputStatus
  | inputsRead
  | valuesLeft
  | picksCompaction
  | isTrivialMove
  | picksVCompaction
  | decoupledCompaction
deriving DecidableEq

/-- The answers, which depend on how often the environment was asked, and the number of
entries of the tables that a function reads. -/
structure Environment where
  answer : Question -> Nat -> Bool
  entries : Nat -> Nat
  vinputs : Nat -> List Nat

/-- The mutex, and how often the environment was asked. -/
structure Mutex where
  held : Bool
  asked : Nat

/-- Why a run stops. -/
inductive Stop where
  | deadlock
  | notHeld
  | abort (text : String)
deriving DecidableEq

abbrev Work (α : Type) := Checked Stop Mutex α

/-- `mutex_.Lock()`. -/
def lock : Work Unit := fun mutex =>
  if mutex.held then .error .deadlock else .ok ((), { mutex with held := true })

/-- `mutex_.Unlock()`. -/
def unlock : Work Unit := fun mutex =>
  if mutex.held then .ok ((), { mutex with held := false }) else .error .notHeld

/-- Do some work under a condition. -/
def doIf {α : Type} (condition : Bool) (work : Work α) (otherwise : α) : Work α :=
  if condition then work else pure otherwise

section
variable (env : Environment)

def ask (question : Question) : Work Bool := fun mutex =>
  .ok (env.answer question mutex.asked, { mutex with asked := mutex.asked + 1 })

def countEntries : Work Nat := fun mutex => .ok (env.entries mutex.asked, mutex)

def countVInputs : Work (List Nat) := fun mutex => .ok (env.vinputs mutex.asked, mutex)

/-- `VersionSet::LogAndApply`, as far as the mutex is concerned; the result is whether it
succeeds. -/
def logAndApply : Work Bool := do
  unlock
  let ok <- ask env .logAndApply
  lock
  return ok

def writeLevel0Table : Work Bool := do
  unlock
  let ok <- ask env .buildTable
  lock
  return ok

/-- `CompactMemTable`.  Without a new table its last lines read the first of no files. -/
def compactMemTable : Work Unit := do
  let written <- writeLevel0Table env
  if written then do
    let stopping <- ask env .shuttingDown
    if stopping then pure ()
    else do
      let _ <- logAndApply env
      pure ()
  else throw (.abort "edit.new_files_[0]")

/-- The start of a pass of `DoCompactionWork`: flush a memtable that waits. -/
def flushWaiting : Work Unit := do
  let waits <- ask env .hasImm
  if waits then do
    lock
    let present <- ask env .immExists
    doIf present (compactMemTable env) ()
    unlock
  else pure ()

/-- The status variable of a compaction, and whether it has an open output file. -/
structure Progress where
  status : Bool
  builder : Bool

/-- `OpenCompactionOutputFile` and `OpenCompactionVOutputFile`: the number of the file is
taken under the mutex. -/
def openFile (question : Question) : Work Progress := do
  lock
  unlock
  let ok <- ask env question
  return ⟨ok, ok⟩

/-- Add an entry to the output, which is opened before if necessary and finished
afterwards if it is large enough. -/
def writeEntry (opens finishes : Question) (progress : Progress) : Work Progress := do
  let opened <- doIf (!progress.builder) (openFile env opens) progress
  if opened.builder then do
    let full <- ask env .fileFull
    if full then do
      let ok <- ask env finishes
      return ⟨ok, false⟩
    else return opened
  else return opened

/-- `FinishCompactionOutputFile` and `FinishCompactionVOutputFile`, if a file is open. -/
def finishFile (finishes : Question) (progress : Progress) : Work Progress := do
  if progress.builder then do
    let ok <- ask env finishes
    return ⟨ok, false⟩
  else return progress

/-- The last operation has failed, so that a loop is left. -/
def Progress.broken (progress : Progress) : Bool := !progress.status && !progress.builder

/-- One entry of the merged inputs.  With `MOD` 9 it is only remembered. -/
def compactEntry (mod : Nat) (progress : Progress) : Work Progress := do
  flushWaiting env
  let stops <- ask env .shouldStopBefore
  let progress <- doIf stops (finishFile env .finishOutput progress) progress
  if progress.broken then return progress
  else do
    let drops <- ask env .dropsEntry
    if drops || mod = 9 then return progress
    else writeEntry env .openOutput .finishOutput progress

/-- The loop over the merged inputs. -/
def compactLoop (mod : Nat) : Nat -> Progress -> Work Progress
  | 0, progress => pure progress
  | entries + 1, progress => do
    let stopping <- ask env .shuttingDown
    if stopping then return progress
    else do
      let progress <- compactEntry env mod progress
      if progress.broken then return progress else compactLoop mod entries progress

/-- The loop over the entries of one value file, with `MOD` 9. -/
def copyValues : Nat -> Progress -> Work Progress
  | 0, progress => pure progress
  | entries + 1, progress => do
    let stopping <- ask env .shuttingDown
    if stopping then return progress
    else do
      let wanted <- ask env .valueWanted
      if wanted then do
        let progress <- writeEntry env .openVOutput .finishVOutput progress
        if progress.broken then return progress else copyValues entries progress
      else copyValues entries progress

/-- The loop over the value files. -/
def copyInputs : List Nat -> Progress -> Work Progress
  | [], progress => pure progress
  | entries :: vinputs, progress => do
    let progress <- copyValues env entries progress
    copyInputs vinputs progress

/-- The loop over the remembered keys, with `MOD` 9. -/
def writePending : Nat -> Progress -> Work Progress
  | 0, progress => pure progress
  | entries + 1, progress => do
    let progress <- writeEntry env .openOutput .finishOutput progress
    if progress.broken then return progress else writePending entries progress

/-- The end of `DoCompactionWork`.  After a failure it returns at once. -/
def finishWork (progress : Progress) : Work Bool := do
  let progress <- doIf progress.status (finishFile env .finishOutput progress) progress
  if progress.status then do
    let readable <- ask env .inputStatus
    lock
    doIf readable (logAndApply env) false
  else return false

def doCompactionWork (mod : Nat) : Work Bool := do
  unlock
  let entries <- countEntries env
  let progress <- compactLoop env mod entries ⟨true, false⟩
  let stopping <- doIf progress.status (ask env .shuttingDown) false
  let progress : Progress := ⟨progress.status && !stopping, progress.builder⟩
  if mod = 9 then do
    let vinputs <- countVInputs env
    let copied <- copyInputs env vinputs ⟨progress.status, false⟩
    let copied <- finishFile env .finishVOutput copied
    if copied.status then do
      let pending <- countEntries env
      let written <- writePending env pending ⟨true, progress.builder⟩
      finishWork env written
    else return false
  else finishWork env progress

def triggerLSMTreeCompaction (mod : Nat) : Work Bool := do
  let picks <- ask env .picksCompaction
  if picks then doCompactionWork env mod else return true

/-- The compactions of the key tree that follow a compaction of value files. -/
def triggerLoop (mod : Nat) : Nat -> Work Bool
  | 0 => pure true
  | count + 1 => do
    let ok <- triggerLSMTreeCompaction env mod
    if ok then triggerLoop mod count else return false

def doVCompactionWork (mod : Nat) : Work Bool := do
  unlock
  let read <- ask env .inputsRead
  let left <- ask env .valuesLeft
  if left then do
    let opened <- openFile env .openVOutput
    if opened.status then do
      let finished <- ask env .finishVOutput
      lock
      let installed <- doIf finished (logAndApply env) false
      let decoupled <- ask env .decoupledCompaction
      if installed && mod = 10 && !decoupled then triggerLoop env mod 100
      else return installed
    else return false
  else do
    lock
    doIf read (logAndApply env) false

/-- The part of `BackgroundCompaction` about the key tree. -/
def compactKeys (mod : Nat) : Work Unit := do
  let picks <- ask env .picksCompaction
  if picks then do
    let moves <- ask env .isTrivialMove
    if moves && mod ≠ 9 then do
      let _ <- logAndApply env
      pure ()
    else do
      let _ <- doCompactionWork env mod
      pure ()
  else pure ()

/-- The part of `BackgroundCompaction` about the value files. -/
def compactVFiles (mod : Nat) : Work Unit := do
  if mod = 10 ∨ mod = 13 then do
    let picks <- ask env .picksVCompaction
    if picks then do
      let _ <- doVCompactionWork env mod
      pure ()
    else pure ()
  else pure ()

def backgroundCompaction (mod : Nat) : Work Unit := do
  let waits <- ask env .immExists
  if waits then compactMemTable env
  else do
    compactKeys env mod
    compactVFiles env mod

def backgroundCall (mod : Nat) : Work Unit := do
  lock
  let stopping <- ask env .shuttingDown
  let failed <- ask env .bgError
  doIf (!stopping && !failed) (backgroundCompaction env mod) ()
  unlock

/-! ## Balance -/

/-- No output file fails to open or to finish and no shutdown is seen.  Only `MOD` 9
finishes value files before it takes the mutex again. -/
structure Undisturbed (mod : Nat) : Prop where
  running : forall n, env.answer .shuttingDown n = false
  opens : forall n, env.answer .openOutput n = true
  finishes : forall n, env.answer .finishOutput n = true
  opensV : forall n, env.answer .openVOutput n = true
  finishesV : mod = 9 -> forall n, env.answer .finishVOutput n = true

end

/-- A run may only stop on an assertion, never because of the mutex. -/
def Harmless (reason : Stop) : Prop := ∃ text, reason = .abort text

/-- The mutex is held, or it is free. -/
def At (held : Bool) (mutex : Mutex) : Prop := mutex.held = held

/-- The computation finds the mutex in one state and leaves it in another one. -/
abbrev Moves {α : Type} (before : Bool) (work : Work α) (after : Bool) : Prop :=
  Meets Harmless (At before) work (fun _ => At after)

/-- Moreover the result has a property. -/
abbrev MovesTo {α : Type} (before : Bool) (work : Work α) (after : Bool)
    (result : α -> Prop) : Prop :=
  Meets Harmless (At before) work (fun value mutex => At after mutex ∧ result value)

theorem lock_moves : Moves false lock true := by
  intro mutex isFree
  refine Or.inl ⟨(), { mutex with held := true }, ?_, rfl⟩
  simp [lock, show mutex.held = false from isFree]

theorem unlock_moves : Moves true unlock false := by
  intro mutex isHeld
  refine Or.inl ⟨(), { mutex with held := false }, ?_, rfl⟩
  simp [unlock, show mutex.held = true from isHeld]

variable {α : Type}

theorem pure_movesTo {held : Bool} {value : α} {result : α -> Prop}
    (holds : result value) : MovesTo held (pure value) held result :=
  Meets.pure (fun _ same => ⟨same, holds⟩)

theorem pure_moves {held : Bool} {value : α} : Moves held (pure value) held :=
  Meets.pure (fun _ same => same)

theorem MovesTo.bind {α β : Type} {before between : Bool} {work : Work α}
    {next : α -> Work β} {middle : α -> Prop} {post : β -> Mutex -> Prop}
    (first : MovesTo before work between middle)
    (second : ∀ value, middle value -> Meets Harmless (At between) (next value) post) :
    Meets Harmless (At before) (work >>= next) post :=
  Meets.bind first (fun value => Meets.of_and (second value))

variable {otherwise : α}

theorem doIf_meets {condition : Bool} {work : Work α}
    {pre : Mutex -> Prop} {post : α -> Mutex -> Prop} (works : Meets Harmless pre work post)
    (skips : ∀ mutex, pre mutex -> post otherwise mutex) :
    Meets Harmless pre (doIf condition work otherwise) post :=
  Meets.ite (fun _ => works) (fun _ => Meets.pure skips)

theorem doIf_moves {condition held : Bool} {work : Work α}
    (works : Moves held work held) : Moves held (doIf condition work otherwise) held :=
  doIf_meets works (fun _ same => same)

theorem doIf_movesTo {condition held : Bool} {work : Work α}
    {result : α -> Prop} (works : MovesTo held work held result) (holds : result otherwise) :
    MovesTo held (doIf condition work otherwise) held result :=
  doIf_meets works (fun _ same => ⟨same, holds⟩)

section
variable {env : Environment} {mod : Nat} {held : Bool}

theorem ask_moves (question : Question) : Moves held (ask env question) held :=
  fun _ same => Or.inl ⟨_, _, rfl, same⟩

theorem ask_movesTo {question : Question} {always : Bool}
    (answers : ∀ n, env.answer question n = always) :
    MovesTo held (ask env question) held (fun answer => answer = always) :=
  fun mutex same => Or.inl ⟨_, _, rfl, same, answers mutex.asked⟩

theorem asking {question : Question} {work : Bool -> Work α} {post : α -> Mutex -> Prop}
    (works : ∀ answer, Meets Harmless (At held) (work answer) post) :
    Meets Harmless (At held) (ask env question >>= work) post :=
  Meets.bind (ask_moves _) works

theorem countEntries_moves : Moves held (countEntries env) held :=
  fun _ same => Or.inl ⟨_, _, rfl, same⟩

theorem countVInputs_moves : Moves held (countVInputs env) held :=
  fun _ same => Or.inl ⟨_, _, rfl, same⟩

theorem logAndApply_moves : Moves true (logAndApply env) true :=
  Meets.bind unlock_moves fun _ => asking fun _ =>
    Meets.bind lock_moves fun _ => pure_moves

theorem writeLevel0Table_moves : Moves true (writeLevel0Table env) true :=
  Meets.bind unlock_moves fun _ => asking fun _ =>
    Meets.bind lock_moves fun _ => pure_moves

theorem compactMemTable_moves : Moves true (compactMemTable env) true := by
  refine Meets.bind writeLevel0Table_moves fun written => ?_
  refine Meets.ite (fun _ => ?_) (fun _ => Meets.throw ⟨_, rfl⟩)
  refine asking fun stopping => ?_
  apply Meets.ite
  · exact fun _ => pure_moves
  · exact fun _ => Meets.bind logAndApply_moves fun _ => pure_moves

theorem flushWaiting_moves : Moves false (flushWaiting env) false := by
  refine asking fun waits => ?_
  refine Meets.ite (fun _ => ?_) (fun _ => pure_moves)
  refine Meets.bind lock_moves fun _ => asking fun present => ?_
  exact Meets.bind (doIf_moves compactMemTable_moves) fun _ => unlock_moves

/-- The status of a loop that nothing has disturbed. -/
def Progress.Ok (progress : Progress) : Prop := progress.status = true

/-- A step without the mutex leaves such a status. -/
def KeepsOk (step : Progress -> Work Progress) : Prop :=
  forall ⦃progress⦄, progress.Ok -> MovesTo false (step progress) false Progress.Ok

variable {progress : Progress}

theorem Progress.Ok.not_broken (ok : progress.Ok) : ¬ progress.broken = true := by
  unfold Progress.broken
  rw [show progress.status = true from ok]
  simp

theorem openFile_movesTo {opens : Question} (good : ∀ n, env.answer opens n = true) :
    MovesTo false (openFile env opens) false Progress.Ok := by
  refine Meets.bind lock_moves fun _ => Meets.bind unlock_moves fun _ => ?_
  exact MovesTo.bind (ask_movesTo good) fun ok isOk => pure_movesTo isOk

theorem finishFile_movesTo {finishes : Question}
    (good : ∀ n, env.answer finishes n = true) : KeepsOk (finishFile env finishes) := by
  intro _ ok
  apply Meets.ite
  · exact fun _ => MovesTo.bind (ask_movesTo good) fun done isOk => pure_movesTo isOk
  · exact fun _ => pure_movesTo ok

theorem writeEntry_movesTo {opens finishes : Question} (canOpen : ∀ n, env.answer opens n = true)
    (canFinish : ∀ n, env.answer finishes n = true) :
    KeepsOk (writeEntry env opens finishes) := by
  intro _ ok
  refine MovesTo.bind (doIf_movesTo (openFile_movesTo canOpen) ok) fun now nowOk => ?_
  refine Meets.ite (fun _ => ?_) (fun _ => pure_movesTo nowOk)
  refine asking fun full => ?_
  apply Meets.ite
  · exact fun _ => MovesTo.bind (ask_movesTo canFinish) fun done isOk => pure_movesTo isOk
  · exact fun _ => pure_movesTo nowOk

theorem compactEntry_movesTo (calm : Undisturbed env mod) : KeepsOk (compactEntry env mod) := by
  intro _ ok
  refine Meets.bind flushWaiting_moves fun _ => asking fun stops => ?_
  refine MovesTo.bind (doIf_movesTo (finishFile_movesTo calm.finishes ok) ok) fun now nowOk => ?_
  refine Meets.ite (fun broken => absurd broken nowOk.not_broken) fun _ => ?_
  refine asking fun drops => ?_
  apply Meets.ite
  · exact fun _ => pure_movesTo nowOk
  · exact fun _ => writeEntry_movesTo calm.opens calm.finishes nowOk

theorem compactLoop_movesTo (calm : Undisturbed env mod) (entries : Nat) :
    KeepsOk (compactLoop env mod entries) := by
  induction entries with
  | zero => exact fun _ ok => pure_movesTo ok
  | succ entries ih =>
    intro _ ok
    refine asking fun stopping => ?_
    refine Meets.ite (fun _ => pure_movesTo ok) fun _ => ?_
    refine MovesTo.bind (compactEntry_movesTo calm ok) fun now nowOk => ?_
    exact Meets.ite (fun _ => pure_movesTo nowOk) (fun _ => ih nowOk)

theorem copyValues_movesTo (calm : Undisturbed env 9) (entries : Nat) :
    KeepsOk (copyValues env entries) := by
  induction entries with
  | zero => exact fun _ ok => pure_movesTo ok
  | succ entries ih =>
    intro _ ok
    refine asking fun stopping => ?_
    refine Meets.ite (fun _ => pure_movesTo ok) fun _ => ?_
    refine asking fun wanted => ?_
    refine Meets.ite (fun _ => ?_) (fun _ => ih ok)
    refine MovesTo.bind (writeEntry_movesTo calm.opensV (calm.finishesV rfl) ok) fun now nowOk => ?_
    exact Meets.ite (fun _ => pure_movesTo nowOk) (fun _ => ih nowOk)

theorem copyInputs_movesTo (calm : Undisturbed env 9) (vinputs : List Nat) :
    KeepsOk (copyInputs env vinputs) := by
  induction vinputs with
  | nil => exact fun _ ok => pure_movesTo ok
  | cons entries vinputs ih =>
    intro _ ok
    exact MovesTo.bind (copyValues_movesTo calm entries ok) fun now nowOk => ih nowOk

theorem writePending_movesTo (calm : Undisturbed env mod) (entries : Nat) :
    KeepsOk (writePending env entries) := by
  induction entries with
  | zero => exact fun _ ok => pure_movesTo ok
  | succ entries ih =>
    intro _ ok
    refine MovesTo.bind (writeEntry_movesTo calm.opens calm.finishes ok) fun now nowOk => ?_
    exact Meets.ite (fun _ => pure_movesTo nowOk) (fun _ => ih nowOk)

section
variable (calm : Undisturbed env mod)
include calm

theorem finishWork_moves (ok : progress.Ok) : Moves false (finishWork env progress) true := by
  refine MovesTo.bind (doIf_movesTo (finishFile_movesTo calm.finishes ok) ok) fun now nowOk => ?_
  refine Meets.ite (fun _ => ?_) (fun failed => absurd nowOk failed)
  refine asking fun readable => Meets.bind lock_moves fun _ => ?_
  exact doIf_moves logAndApply_moves

theorem doCompactionWork_moves : Moves true (doCompactionWork env mod) true := by
  refine Meets.bind unlock_moves fun _ => Meets.bind countEntries_moves fun entries => ?_
  refine MovesTo.bind (compactLoop_movesTo calm entries rfl) fun now nowOk => ?_
  refine MovesTo.bind (doIf_movesTo (ask_movesTo calm.running) rfl) fun stopping goesOn => ?_
  have stillOk : (Progress.mk (now.status && !stopping) now.builder).Ok := by
    rw [goesOn, show now.status = true from nowOk]
    rfl
  refine Meets.ite (fun isNine => ?_) (fun _ => finishWork_moves calm stillOk)
  subst isNine
  refine Meets.bind countVInputs_moves fun vinputs => ?_
  refine MovesTo.bind (copyInputs_movesTo calm vinputs stillOk) fun copied copiedOk => ?_
  refine MovesTo.bind (finishFile_movesTo (calm.finishesV rfl) copiedOk) fun last lastOk => ?_
  refine Meets.ite (fun _ => ?_) (fun failed => absurd lastOk failed)
  refine Meets.bind countEntries_moves fun pending => ?_
  refine MovesTo.bind (writePending_movesTo calm pending rfl) fun written writtenOk => ?_
  exact finishWork_moves calm writtenOk

theorem triggerLoop_moves (count : Nat) : Moves true (triggerLoop env mod count) true := by
  induction count with
  | zero => exact pure_moves
  | succ count ih =>
    have once : Moves true (triggerLSMTreeCompaction env mod) true :=
      asking fun picks =>
        Meets.ite (fun _ => doCompactionWork_moves calm) (fun _ => pure_moves)
    refine Meets.bind once fun ok => ?_
    exact Meets.ite (fun _ => ih) (fun _ => pure_moves)

theorem doVCompactionWork_moves : Moves true (doVCompactionWork env mod) true := by
  refine Meets.bind unlock_moves fun _ => asking fun read => ?_
  refine asking fun left => ?_
  apply Meets.ite
  · intro _
    refine MovesTo.bind (openFile_movesTo calm.opensV) fun opened isOk => ?_
    refine Meets.ite (fun _ => ?_) (fun failed => absurd isOk failed)
    refine asking fun finished => Meets.bind lock_moves fun _ => ?_
    refine Meets.bind (doIf_moves logAndApply_moves) fun installed => ?_
    refine asking fun decoupled => ?_
    exact Meets.ite (fun _ => triggerLoop_moves calm 100) (fun _ => pure_moves)
  · intro _
    exact Meets.bind lock_moves fun _ => doIf_moves logAndApply_moves

theorem compactKeys_moves : Moves true (compactKeys env mod) true := by
  refine asking fun picks => ?_
  refine Meets.ite (fun _ => ?_) (fun _ => pure_moves)
  refine asking fun moves => ?_
  apply Meets.ite
  · exact fun _ => Meets.bind logAndApply_moves fun _ => pure_moves
  · exact fun _ => Meets.bind (doCompactionWork_moves calm) fun _ => pure_moves

theorem compactVFiles_moves : Moves true (compactVFiles env mod) true := by
  refine Meets.ite (fun _ => ?_) (fun _ => pure_moves)
  refine asking fun picks => ?_
  apply Meets.ite
  · exact fun _ => Meets.bind (doVCompactionWork_moves calm) fun _ => pure_moves
  · exact fun _ => pure_moves

theorem backgroundCompaction_moves : Moves true (backgroundCompaction env mod) true := by
  refine asking fun waits => ?_
  apply Meets.ite
  · exact fun _ => compactMemTable_moves
  · exact fun _ => Meets.bind (compactKeys_moves calm) fun _ => compactVFiles_moves calm

theorem backgroundCall_moves : Moves false (backgroundCall env mod) false := by
  refine Meets.bind lock_moves fun _ => asking fun stopping => ?_
  refine asking fun failed => ?_
  exact Meets.bind (doIf_moves (backgroundCompaction_moves calm)) fun _ => unlock_moves

end

variable (env mod) in
/-- In an undisturbed run both functions return with the mutex, and `BackgroundCall`
takes and releases it without ever misusing it. -/
theorem mutex_balanced_of_undisturbed (calm : Undisturbed env mod) :
    Moves true (doCompactionWork env mod) true ∧ Moves true (doVCompactionWork env mod) true ∧
      Moves false (backgroundCall env mod) false :=
  ⟨doCompactionWork_moves calm, doVCompactionWork_moves calm, backgroundCall_moves calm⟩

end

/-- An environment in which all files open and finish and nothing is shut down. -/
def Environment.calm : Environment where
  answer
    | .shuttingDown, _ | .bgError, _ => false
    | _, _ => true
  entries _ := 1
  vinputs _ := [1]

theorem mutex_balanced_calm : Moves true (doCompactionWork Environment.calm 9) true ∧
      Moves true (doVCompactionWork Environment.calm 9) true ∧
      Moves false (backgroundCall Environment.calm 9) false :=
  mutex_balanced_of_undisturbed Environment.calm 9
    ⟨fun _ => rfl, fun _ => rfl, fun _ => rfl, fun _ => rfl, fun _ _ => rfl⟩

/-- A database without a waiting memtable, whose inputs have one entry.  Files fail to
open or finish as told, and a shutdown starts after a number of questions. -/
def Environment.sample (fails : List Question) (shutdown : Nat) : Environment where
  answer
    | .shuttingDown, n => decide (shutdown ≤ n)
    | .bgError, _ | .hasImm, _ | .immExists, _ | .isTrivialMove, _ | .dropsEntry, _ => false
    | .shouldStopBefore, _ | .fileFull, _ => false
    | question, _ => decide (question ∉ fails)
  entries _ := 1
  vinputs _ := [1]

/-- A shutdown, or an output file that cannot be opened or finished, loses the mutex; the
background thread then releases a mutex that it does not hold. -/
theorem doCompactionWork_loses_mutex :
    (doCompactionWork (Environment.sample [] 0) 0 ⟨true, 0⟩).toOption.map
        (fun result => result.2.held) = some false ∧
      (doCompactionWork (Environment.sample [.openOutput] 100) 0 ⟨true, 0⟩).toOption.map
        (fun result => result.2.held) = some false ∧
      (doCompactionWork (Environment.sample [.finishOutput] 100) 0 ⟨true, 0⟩).toOption.map
        (fun result => result.2.held) = some false ∧
      (doVCompactionWork (Environment.sample [.openVOutput] 100) 10 ⟨true, 0⟩).toOption.map
        (fun result => result.2.held) = some false ∧
      backgroundCall (Environment.sample [] 5) 0 ⟨false, 0⟩ = .error .notHeld := by
  refine ⟨?_, ?_, ?_, ?_, rfl⟩ <;> decide +kernel

end Db
end Doux
