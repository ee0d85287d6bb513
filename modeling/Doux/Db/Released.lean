import Doux.Db.Holdings

namespace Doux
namespace Db

open Foundation Util List

namespace Holdings

/-!
# Background work gives everything back

The references to versions, besides the one of the version set, are those that a job
holds and those of the readers, and the pending numbers are outputs of the job.  This is
true at every point of a background call that triggers no compaction, so that nothing is
left when it ends: nothing is pending, and without readers the list of versions holds
the current one only.
-/

/-- The references to versions and the pending numbers have owners. -/
structure Holds (held : Multiset Nat) (outputs voutputs : List Nat) (holdings : Holdings) :
    Prop where
  accounts : holdings.versions.Accounts
    (holdings.current ::ₘ (held + (holdings.readers : Multiset Nat)))
  outputs : ∀ number ∈ holdings.pendingOutputs, number ∈ outputs
  voutputs : ∀ number ∈ holdings.pendingVOutputs, number ∈ voutputs

/-- A job that holds references writes the outputs of a compaction. -/
def Owns (held : Multiset Nat) (compact : CompactionState) : Holdings -> Prop :=
  Holds held compact.outputs compact.voutputs

/-- No run stops because a version has no reference that could be given up. -/
def Tolerated (reason : Stop) : Prop := reason ≠ .abort "refs_ >= 1"

/-- The job changes what is held, and never misses a reference. -/
abbrev Shifts {α : Type} (before : Holdings -> Prop) (job : Job α)
    (after : α -> Holdings -> Prop) : Prop :=
  Meets Tolerated before job after

section

variable {around : Surroundings} {mod : Nat} {held : Multiset Nat}
  {outputs voutputs : List Nat} {compact : CompactionState} {α : Type}

variable (held outputs voutputs) in
/-- The job leaves what is held as it is. -/
abbrev Keeps (job : Job α) : Prop :=
  Shifts (Holds held outputs voutputs) job (fun _ => Holds held outputs voutputs)

variable {before : Holdings -> Prop}

theorem doIf_shifts {condition : Bool} {job : Job α} {otherwise : α} {after : α -> Holdings -> Prop}
    (works : Shifts before job after)
    (skips : ∀ holdings, before holdings -> after otherwise holdings) :
    Shifts before (doIf condition job otherwise) after :=
  Meets.ite (fun _ => works) (fun _ => Meets.pure skips)

theorem lock_shifts : Keeps held outputs voutputs (onMutex lock) := by
  intro holdings holds
  cases isHeld : holdings.mutex.held
  · exact Or.inl ⟨(), { holdings with mutex := { holdings.mutex with held := true } },
      by simp [onMutex, lock, isHeld], { holds with }⟩
  · exact Or.inr ⟨.deadlock, by simp [onMutex, lock, isHeld], by simp [Tolerated]⟩

theorem unlock_shifts : Keeps held outputs voutputs (onMutex unlock) := by
  intro holdings holds
  cases isHeld : holdings.mutex.held
  · exact Or.inr ⟨.notHeld, by simp [onMutex, unlock, isHeld], by simp [Tolerated]⟩
  · exact Or.inl ⟨(), { holdings with mutex := { holdings.mutex with held := false } },
      by simp [onMutex, unlock, isHeld], { holds with }⟩

theorem inquire_shifts (question : Question) :
    Keeps held outputs voutputs (inquire around question) :=
  fun _ holds => Or.inl ⟨_, _, rfl, { holds with }⟩

theorem asks {question : Question} {job : Bool -> Job α} {after : α -> Holdings -> Prop}
    (works : ∀ answer, Shifts (Holds held outputs voutputs) (job answer) after) :
    Shifts (Holds held outputs voutputs) (inquire around question >>= job) after :=
  Meets.bind (inquire_shifts _) works

theorem returns {result : α} : Shifts before (pure result) (fun _ => before) :=
  Meets.pure fun _ => id

theorem returns_owned : Shifts (Owns held compact) (pure compact) (Owns held) :=
  Meets.pure fun _ => id

/-- What the step opens is in the state it returns. -/
def Manages (held : Multiset Nat) (step : CompactionState -> Job CompactionState) : Prop :=
  forall compact, Shifts (Owns held compact) (step compact) (Owns held)

theorem inquire_shifts_always {question : Question} {always : Bool}
    (answers : ∀ n, around.answer question n = always) :
    Shifts (Holds held outputs voutputs) (inquire around question)
      (fun answer holdings => Holds held outputs voutputs holdings ∧ answer = always) :=
  fun holdings holds => Or.inl ⟨_, _, rfl, { holds with }, answers holdings.mutex.asked⟩

theorem refCurrent_shifts : Shifts (Holds held outputs voutputs) refCurrent
    (fun version => Holds (version ::ₘ held) outputs voutputs) := by
  intro _ holds
  refine Or.inl ⟨_, _, rfl, ?_, holds.outputs, holds.voutputs⟩
  have again := holds.accounts.ref (Multiset.mem_cons_self _ _)
  rw [Multiset.cons_add]
  exact again

theorem unref_shifts (version : Nat) :
    Shifts (Holds (version ::ₘ held) outputs voutputs) (unref version)
      (fun _ => Holds held outputs voutputs) := by
  intro holdings holds
  have accounts := holds.accounts
  rw [Multiset.cons_add, Multiset.cons_swap] at accounts
  rcases accounts.unref with ⟨versions, given, after⟩
  refine Or.inl ⟨(), { holdings with versions }, ?_, after, holds.outputs, holds.voutputs⟩
  simp [unref, given]

theorem appendVersion_shifts (version : Version Bytes Bytes) :
    Keeps held outputs voutputs (appendVersion version) := by
  intro holdings holds
  rcases holds.accounts.unref with ⟨versions, given, after⟩
  refine Or.inl ⟨(), { holdings with
    versions := versions.append version
    current := versions.next }, ?_, after.append version, holds.outputs, holds.voutputs⟩
  simp [appendVersion, unref, given, makeCurrent, bind, StateT.bind, Except.bind]

theorem newFileNumber_shifts : Keeps held outputs voutputs newFileNumber :=
  fun _ holds => Or.inl ⟨_, _, rfl, holds.accounts, holds.outputs, holds.voutputs⟩

theorem modify_shifts {change : Holdings -> Holdings}
    (after : Holdings -> Prop)
    (changes : ∀ holdings, before holdings -> after (change holdings)) :
    Shifts before (modify change) (fun _ => after) :=
  fun holdings holds => Or.inl ⟨(), change holdings, rfl, changes holdings holds⟩

theorem release_shifts (index : Nat) : Keeps held outputs voutputs (release index) := by
  intro holdings holds
  cases found : holdings.readers[index]? with
  | none => exact Or.inl ⟨(), holdings, by simp [release, found], holds⟩
  | some version =>
    rcases List.getElem?_eq_some_iff.mp found with ⟨inside, isReader⟩
    have split : (holdings.readers : Multiset Nat) =
        version ::ₘ (holdings.readers.eraseIdx index : Multiset Nat) := by
      rw [Multiset.cons_coe, Multiset.coe_eq_coe, ← isReader]
      exact (getElem_cons_eraseIdx_perm inside).symm
    have accounts := holds.accounts
    rw [split, Multiset.add_cons, ← Multiset.cons_add] at accounts
    have given := unref_shifts version
      { holdings with readers := holdings.readers.eraseIdx index }
      ⟨accounts, holds.outputs, holds.voutputs⟩
    simpa only [release, found] using given

theorem other_shifts (action : Other) : Keeps held outputs voutputs (other action) := by
  cases action with
  | acquire =>
    refine Meets.bind refCurrent_shifts fun version => modify_shifts _ fun _ holds => ?_
    refine ⟨?_, holds.outputs, holds.voutputs⟩
    have accounts := holds.accounts
    rw [Multiset.cons_add, ← Multiset.add_cons] at accounts
    exact accounts
  | release index => exact release_shifts index
  | newFileNumber => exact Meets.bind newFileNumber_shifts fun _ => returns

theorem others_shifts (actions : List Other) : Keeps held outputs voutputs (others actions) := by
  induction actions with
  | nil => exact returns
  | cons action actions ih => exact Meets.bind (other_shifts action) fun _ => ih

theorem interleave_shifts : Keeps held outputs voutputs (interleave around) :=
  fun holdings holds => others_shifts (around.others holdings.mutex.asked) holdings holds

section
variable {pending : Finset Nat} {list : List Nat} (owned : ∀ number ∈ pending, number ∈ list)
include owned

theorem owned_insert (number : Nat) : ∀ other ∈ insert number pending, other ∈ number :: list := by
  intro other isPending
  exact mem_cons.mpr ((Finset.mem_insert.mp isPending).imp_right (owned other))

theorem owned_insert_last (number : Nat) :
    ∀ other ∈ insert number pending, other ∈ list ++ [number] := by
  intro other isPending
  rw [mem_append, mem_singleton, or_comm]
  exact (Finset.mem_insert.mp isPending).imp_right (owned other)

theorem owned_sdiff : ∀ number ∈ pending \ list.toFinset, number ∈ ([] : List Nat) := by
  intro number isPending
  rcases Finset.mem_sdiff.mp isPending with ⟨wasPending, notOutput⟩
  exact absurd (mem_toFinset.mpr (owned number wasPending)) notOutput

end

theorem owned_erase {pending : Finset Nat} {list : List Nat} {number : Nat}
    (owned : ∀ other ∈ pending, other ∈ number :: list) :
    ∀ other ∈ pending.erase number, other ∈ list := by
  intro other isPending
  rcases Finset.mem_erase.mp isPending with ⟨different, wasPending⟩
  exact (mem_cons.mp (owned other wasPending)).resolve_left different

theorem newVersion_shifts : Keeps held outputs voutputs (newVersion around) :=
  fun holdings holds => Or.inl ⟨_, holdings, rfl, holds⟩

theorem logAndApply_shifts : Keeps held outputs voutputs (logAndApply around) := by
  refine Meets.bind refCurrent_shifts fun base => ?_
  refine Meets.bind newVersion_shifts fun version => ?_
  refine Meets.bind (unref_shifts base) fun _ => ?_
  refine Meets.bind unlock_shifts fun _ => Meets.bind interleave_shifts fun _ => ?_
  refine asks fun ok => Meets.bind lock_shifts fun _ => ?_
  apply Meets.ite
  · exact fun _ => Meets.bind (appendVersion_shifts version) fun _ => returns
  · exact fun _ => returns

theorem writeLevel0Table_shifts : Keeps held outputs voutputs (writeLevel0Table around) := by
  refine Meets.bind newFileNumber_shifts fun number => ?_
  refine Meets.bind (modify_shifts (Holds held (number :: outputs) (number :: voutputs))
    fun _ holds => ⟨holds.accounts, owned_insert holds.outputs number,
      owned_insert holds.voutputs number⟩) fun _ => Meets.bind unlock_shifts fun _ => ?_
  refine Meets.bind interleave_shifts fun _ => asks fun ok => ?_
  refine Meets.bind lock_shifts fun _ => ?_
  refine Meets.bind (modify_shifts _ fun _ holds => ?_) fun _ => returns
  exact ⟨holds.accounts, owned_erase holds.outputs, owned_erase holds.voutputs⟩

theorem compactMemTable_shifts : Keeps held outputs voutputs (compactMemTable around) := by
  refine Meets.bind refCurrent_shifts fun base => ?_
  refine Meets.bind writeLevel0Table_shifts fun written => ?_
  refine Meets.bind (unref_shifts base) fun _ => ?_
  refine Meets.ite (fun _ => ?_) (fun _ => Meets.throw (by simp [Tolerated]))
  refine asks fun stopping => ?_
  apply Meets.ite
  · exact fun _ => returns
  · exact fun _ => Meets.bind logAndApply_shifts fun _ => returns

theorem flushWaiting_shifts : Keeps held outputs voutputs (flushWaiting around) := by
  refine Meets.bind interleave_shifts fun _ => asks fun waits => ?_
  refine Meets.ite (fun _ => ?_) (fun _ => returns)
  refine Meets.bind lock_shifts fun _ => asks fun present => ?_
  exact Meets.bind (doIf_shifts compactMemTable_shifts fun _ => id) fun _ => unlock_shifts

/-! ## Output files -/

theorem openCompactionOutputFile_shifts : Manages held (openCompactionOutputFile around) := by
  intro compact
  refine Meets.bind interleave_shifts fun _ => Meets.bind lock_shifts fun _ => ?_
  refine Meets.bind newFileNumber_shifts fun number => ?_
  refine Meets.bind (modify_shifts (Holds held (compact.outputs ++ [number]) compact.voutputs)
    fun _ holds => ⟨holds.accounts, owned_insert_last holds.outputs number, holds.voutputs⟩)
    fun _ => Meets.bind unlock_shifts fun _ => ?_
  exact asks fun ok => Meets.pure fun _ => id

theorem openCompactionVOutputFile_opens (compact : CompactionState) :
    Shifts (Holds held outputs compact.voutputs) (openCompactionVOutputFile around compact)
      (fun opened holdings =>
        Holds held outputs opened.voutputs holdings ∧ opened.outputs = compact.outputs) := by
  refine Meets.bind interleave_shifts fun _ => Meets.bind lock_shifts fun _ => ?_
  refine Meets.bind newFileNumber_shifts fun number => ?_
  refine Meets.bind (modify_shifts (Holds held outputs (compact.voutputs ++ [number]))
    fun _ holds => ⟨holds.accounts, holds.outputs, owned_insert_last holds.voutputs number⟩)
    fun _ => Meets.bind unlock_shifts fun _ => ?_
  exact asks fun ok => Meets.pure fun _ holds => ⟨holds, rfl⟩

theorem openCompactionVOutputFile_shifts : Manages held (openCompactionVOutputFile around) :=
  fun compact => (openCompactionVOutputFile_opens compact).imp (fun _ => id) (by
    rintro _ _ ⟨holds, same⟩
    exact ⟨holds.accounts, same ▸ holds.outputs, holds.voutputs⟩)

theorem finishFile_shifts {finishes : Question} : Manages held (finishFile around finishes) := by
  intro _
  apply Meets.ite
  · exact fun _ => asks fun ok => Meets.pure fun _ => id
  · exact fun _ => returns_owned

theorem writeEntry_shifts {opens : CompactionState -> Job CompactionState} {finishes : Question}
    (opening : Manages held opens) : Manages held (writeEntry around opens finishes) := by
  intro compact
  refine Meets.bind (doIf_shifts (opening compact) fun _ => id) fun opened => ?_
  refine Meets.ite (fun _ => ?_) (fun _ => returns_owned)
  refine asks fun full => ?_
  apply Meets.ite
  · exact fun _ => asks fun ok => Meets.pure fun _ => id
  · exact fun _ => Meets.pure fun _ => id

theorem cleanupCompaction_shifts :
    Shifts (Owns held compact) (cleanupCompaction compact) (fun _ => Holds held [] []) :=
  modify_shifts _ fun _ holds =>
    ⟨holds.accounts, owned_sdiff holds.outputs, owned_sdiff holds.voutputs⟩

/-- `CleanupVCompaction` suffices for a compaction that has only written value files. -/
theorem cleanupVCompaction_shifts :
    Shifts (Holds held [] compact.voutputs) (cleanupVCompaction compact)
      (fun _ => Holds held [] []) :=
  modify_shifts _ fun _ holds => ⟨holds.accounts, holds.outputs, owned_sdiff holds.voutputs⟩

theorem compactEntry_shifts : Manages held (compactEntry around mod) := by
  intro _
  refine Meets.bind flushWaiting_shifts fun _ => asks fun stops => ?_
  refine Meets.bind (doIf_shifts (finishFile_shifts _) fun _ => id) fun now => ?_
  refine Meets.ite (fun _ => returns_owned) fun _ => ?_
  refine asks fun drops => ?_
  apply Meets.ite
  · exact fun _ => Meets.pure fun _ => id
  · exact fun _ => writeEntry_shifts openCompactionOutputFile_shifts _

theorem compactLoop_shifts (entries : Nat) : Manages held (compactLoop around mod entries) := by
  induction entries with
  | zero => exact fun _ => returns_owned
  | succ entries ih =>
    intro _
    refine asks fun stopping => ?_
    refine Meets.ite (fun _ => returns_owned) fun _ => ?_
    refine Meets.bind (compactEntry_shifts _) fun now => ?_
    exact Meets.ite (fun _ => Meets.pure fun _ => id) (fun _ => ih now)

theorem copyValues_shifts (entries : Nat) : Manages held (copyValues around entries) := by
  induction entries with
  | zero => exact fun _ => returns_owned
  | succ entries ih =>
    intro compact
    refine asks fun stopping => ?_
    refine Meets.ite (fun _ => returns_owned) fun _ => ?_
    refine asks fun wanted => ?_
    refine Meets.ite (fun _ => ?_) (fun _ => ih compact)
    refine Meets.bind (writeEntry_shifts openCompactionVOutputFile_shifts _) fun now => ?_
    exact Meets.ite (fun _ => Meets.pure fun _ => id) (fun _ => ih now)

theorem copyInputs_shifts (vinputs : List Nat) : Manages held (copyInputs around vinputs) := by
  induction vinputs with
  | nil => exact fun _ => returns_owned
  | cons entries vinputs ih =>
    intro compact
    exact Meets.bind (copyValues_shifts entries compact) fun now => ih now

theorem writePending_shifts (entries : Nat) : Manages held (writePending around entries) := by
  induction entries with
  | zero => exact fun _ => returns_owned
  | succ entries ih =>
    intro _
    refine Meets.bind (writeEntry_shifts openCompactionOutputFile_shifts _) fun now => ?_
    exact Meets.ite (fun _ => returns_owned) (fun _ => ih now)

theorem finishWork_shifts (compact : CompactionState) :
    Shifts (Owns held compact) (finishWork around compact) (fun result => Owns held result.2) := by
  refine Meets.bind (doIf_shifts (finishFile_shifts _) fun _ => id) fun now => ?_
  refine Meets.ite (fun _ => ?_) (fun _ => Meets.pure fun _ => id)
  refine asks fun readable => ?_
  refine Meets.bind interleave_shifts fun _ => Meets.bind lock_shifts fun _ => ?_
  exact Meets.bind (doIf_shifts logAndApply_shifts fun _ => id) fun ok => Meets.pure fun _ => id

theorem count_shifts {work : Work α}
    (counts : ∀ mutex, ∃ count, work mutex = .ok (count, mutex)) :
    Shifts before (onMutex work) (fun _ => before) := by
  intro holdings holds
  rcases counts holdings.mutex with ⟨count, answers⟩
  exact Or.inl ⟨count, holdings, by simp [onMutex, answers], holds⟩

/-- `DoCompactionWork` keeps its reference, and what it has opened is in its state, on
every path through it. -/
theorem doCompactionWork_shifts :
    Shifts (Holds held [] []) (doCompactionWork around mod) (fun result => Owns held result.2) := by
  refine Meets.bind unlock_shifts fun _ => ?_
  refine Meets.bind (count_shifts fun _ => ⟨_, rfl⟩) fun entries => ?_
  refine Meets.bind (compactLoop_shifts entries ⟨⟨true, false⟩, [], []⟩) fun now => ?_
  refine Meets.bind (doIf_shifts (inquire_shifts _) fun _ => id) fun stopping => ?_
  refine Meets.ite (fun _ => ?_) (fun _ => finishWork_shifts
    { now with progress := ⟨now.progress.status && !stopping, now.progress.builder⟩ })
  refine Meets.bind (count_shifts fun _ => ⟨_, rfl⟩) fun vinputs => ?_
  refine Meets.bind (copyInputs_shifts vinputs
    { now with progress := ⟨now.progress.status && !stopping, false⟩ }) fun copied => ?_
  refine Meets.bind (finishFile_shifts _) fun last => ?_
  refine Meets.ite (fun _ => ?_) (fun _ => Meets.pure fun _ => id)
  refine Meets.bind (count_shifts fun _ => ⟨_, rfl⟩) fun pending => ?_
  exact Meets.bind (writePending_shifts pending
    { last with progress := ⟨true, now.progress.builder⟩ }) finishWork_shifts

variable (around mod) in
/-- A compaction of value files that may trigger a compaction of the key tree: with
`MOD` 10 and `if_decoupled_compaction` not set, value files and the key tree both are
due for a compaction. -/
structure Coupled : Prop where
  isTen : mod = 10
  notDecoupled : ∃ n, around.answer .decoupledCompaction n = false
  vdue : ∃ n, around.answer .picksVCompaction n = true
  due : ∃ n, around.answer .picksCompaction n = true

theorem cases_of_not_coupled (calm : ¬ Coupled around mod)
    (vdue : ∃ n, around.answer .picksVCompaction n = true) :
    mod ≠ 10 ∨ (∀ n, around.answer .decoupledCompaction n = true) ∨
      ∀ n, around.answer .picksCompaction n = false := by
  by_contra none
  push Not at none
  rcases none with ⟨isTen, ⟨n, notDecoupled⟩, m, due⟩
  exact calm ⟨isTen, ⟨n, by simpa using notDecoupled⟩, vdue, ⟨m, by simpa using due⟩⟩

theorem triggerLoop_shifts (idle : ∀ n, around.answer .picksCompaction n = false)
    (count : Nat) : Keeps held outputs voutputs (triggerLoop around mod count) := by
  induction count with
  | zero => exact returns
  | succ count ih =>
    have once : Keeps held outputs voutputs (triggerLSMTreeCompaction around mod) := by
      refine Meets.bind (inquire_shifts_always idle) fun picks => Meets.of_and ?_
      rintro rfl
      exact returns
    exact Meets.bind once fun ok => Meets.ite (fun _ => ih) (fun _ => returns)

section
variable (calm : ¬ Coupled around mod) (vdue : ∃ n, around.answer .picksVCompaction n = true)
include calm vdue

theorem afterInstall_shifts {β : Type} {opened : β} {installed : Bool} :
    Shifts (Holds held outputs voutputs)
      (do let decoupled <- inquire around .decoupledCompaction
          if installed && mod = 10 && !decoupled then do
            let ok <- triggerLoop around mod 100
            return (ok, opened)
          else return (installed, opened))
      (fun result holdings =>
        Holds held outputs voutputs holdings ∧ result.2 = opened) := by
  rcases cases_of_not_coupled calm vdue with notTen | decoupled | idle
  · refine asks fun decoupled => ?_
    simp only [notTen, decide_false, Bool.and_false]
    exact Meets.pure fun _ holds => ⟨holds, rfl⟩
  · refine Meets.bind (inquire_shifts_always decoupled) fun answer => Meets.of_and ?_
    rintro rfl
    simp only [Bool.not_true, Bool.and_false]
    exact Meets.pure fun _ holds => ⟨holds, rfl⟩
  · refine asks fun decoupled => ?_
    apply Meets.ite
    · exact fun _ => Meets.bind (triggerLoop_shifts idle 100) fun ok =>
        Meets.pure fun _ holds => ⟨holds, rfl⟩
    · exact fun _ => Meets.pure fun _ holds => ⟨holds, rfl⟩

/-- Without a triggered compaction `DoVCompactionWork` opens nothing but its value
file. -/
theorem doVCompactionWork_shifts :
    Shifts (Holds held [] []) (doVCompactionWork around mod)
      (fun result => Holds held [] result.2.voutputs) := by
  refine Meets.bind unlock_shifts fun _ => asks fun read => ?_
  refine asks fun left => ?_
  apply Meets.ite
  · intro _
    refine Meets.bind (openCompactionVOutputFile_opens ⟨⟨true, false⟩, [], []⟩)
      fun opened => Meets.of_and fun _ => ?_
    refine Meets.ite (fun _ => ?_) (fun _ => Meets.pure fun _ => id)
    refine asks fun finished => ?_
    refine Meets.bind interleave_shifts fun _ => Meets.bind lock_shifts fun _ => ?_
    refine Meets.bind (doIf_shifts logAndApply_shifts fun _ => id) fun installed => ?_
    exact (afterInstall_shifts calm vdue).imp (fun _ => id) (by
      rintro ⟨ok, _⟩ _ ⟨holds, rfl⟩
      exact holds)
  · intro _
    refine Meets.bind interleave_shifts fun _ => Meets.bind lock_shifts fun _ => ?_
    exact Meets.bind (doIf_shifts logAndApply_shifts fun _ => id) fun ok =>
      Meets.pure fun _ => id

end

theorem releaseInputs_shifts (inputVersion : Nat) :
    Shifts (Holds (inputVersion ::ₘ held) outputs voutputs)
      (do let released <- releaseInputs (some inputVersion)
          deleteCompaction released)
      (fun _ => Holds held outputs voutputs) := by
  have releases : Shifts (Holds (inputVersion ::ₘ held) outputs voutputs)
      (releaseInputs (some inputVersion))
      (fun released holdings => Holds held outputs voutputs holdings ∧ released = none) :=
    Meets.bind (unref_shifts inputVersion) fun _ => Meets.pure fun _ holds => ⟨holds, rfl⟩
  refine Meets.bind releases fun released => Meets.of_and ?_
  rintro rfl
  exact returns

theorem compactKeys_shifts : Shifts (Holds held [] []) (compactKeys around mod)
    (fun _ => Holds held [] []) := by
  refine asks fun picks => ?_
  refine Meets.ite (fun _ => ?_) (fun _ => returns)
  refine Meets.bind refCurrent_shifts fun inputVersion => ?_
  refine asks fun moves => ?_
  apply Meets.ite
  · exact fun _ => Meets.bind logAndApply_shifts fun _ => unref_shifts inputVersion
  · intro _
    refine Meets.bind doCompactionWork_shifts fun result => ?_
    exact Meets.bind cleanupCompaction_shifts fun _ => releaseInputs_shifts inputVersion

theorem dropEmptyCompaction_shifts :
    Shifts (Holds held [] []) (dropEmptyCompaction around) (fun _ => Holds held [] []) := by
  intro holdings holds
  refine Meets.ite (fun _ => ?_) (fun _ => returns) holdings holds
  exact Meets.bind refCurrent_shifts fun inputVersion => unref_shifts inputVersion

theorem compactVFiles_shifts (calm : ¬ Coupled around mod) :
    Shifts (Holds held [] []) (compactVFiles around mod) (fun _ => Holds held [] []) := by
  refine Meets.ite (fun _ => ?_) (fun _ => returns)
  by_cases vdue : ∃ n, around.answer .picksVCompaction n = true
  · refine asks fun picks => ?_
    refine Meets.ite (fun _ => ?_) (fun _ => dropEmptyCompaction_shifts)
    refine Meets.bind refCurrent_shifts fun inputVersion => ?_
    refine Meets.bind (doVCompactionWork_shifts calm vdue) fun result => ?_
    exact Meets.bind cleanupVCompaction_shifts fun _ => releaseInputs_shifts inputVersion
  · have never : ∀ n, around.answer .picksVCompaction n = false := by
      simpa using vdue
    refine Meets.bind (inquire_shifts_always never) fun picks => Meets.of_and ?_
    rintro rfl
    exact dropEmptyCompaction_shifts

/-- A background call gives back everything it has taken. -/
theorem backgroundCall_shifts (calm : ¬ Coupled around mod) :
    Shifts (Holds held [] []) (backgroundCall around mod) (fun _ => Holds held [] []) := by
  refine Meets.bind lock_shifts fun _ => asks fun stopping => ?_
  refine asks fun failed => ?_
  refine Meets.bind (doIf_shifts ?_ fun _ => id) fun _ => unlock_shifts
  refine asks fun waits => ?_
  apply Meets.ite
  · exact fun _ => compactMemTable_shifts
  · exact fun _ => Meets.bind compactKeys_shifts fun _ => compactVFiles_shifts calm

end

/-! ## Runs -/

/-- What happens to an open database. -/
inductive Step where
  | other (action : Other)
  | call (around : Surroundings)

/-- A background call may trigger a compaction. -/
def Step.Coupled (mod : Nat) : Step -> Prop
  | .other _ => False
  | .call around => Holdings.Coupled around mod

def step (mod : Nat) : Step -> Job Unit
  | .other action => other action
  | .call around => backgroundCall around mod

def run (mod : Nat) : List Step -> Job Unit
  | [] => pure ()
  | first :: rest => do
    step mod first
    run mod rest

/-- A database that has just been opened. -/
def opened (version : Version Bytes Bytes) (nextFileNumber : Nat) : Holdings :=
  ⟨⟨false, 0⟩, ⟨[⟨0, 1, version⟩], 1⟩, 0, [], nextFileNumber, ∅, ∅⟩

/-- The tables that `DeleteObsoleteFiles` keeps. -/
def liveFiles (holdings : Holdings) : Finset Nat :=
  FileState.addLive kNumLevels
    (holdings.versions.nodes.map (fun node => node.content.files)) holdings.pendingOutputs

/-- The value files that `DeleteObsoleteFiles` keeps. -/
def liveVFiles (mod : Nat) (holdings : Holdings) : Finset Nat :=
  FileState.addLive (if mod = 10 then 2 else kNumLevels)
    (holdings.versions.nodes.map (fun node => node.content.vfiles)) holdings.pendingVOutputs

/-- Nothing is pending, and without readers only the current version is in the list, so
that only its files are kept. -/
structure Released (mod : Nat) (holdings : Holdings) : Prop where
  outputs : holdings.pendingOutputs = ∅
  voutputs : holdings.pendingVOutputs = ∅
  versions : holdings.readers = [] -> ∃ version,
    holdings.versions.nodes = [⟨holdings.current, 1, version⟩] ∧
      holdings.liveFiles = FileState.addLive kNumLevels [version.files] ∅ ∧
      holdings.liveVFiles mod =
        FileState.addLive (if mod = 10 then 2 else kNumLevels) [version.vfiles] ∅

theorem opened_holds (version : Version Bytes Bytes) (nextFileNumber : Nat) :
    Holds 0 [] [] (opened version nextFileNumber) := by
  refine ⟨⟨by simp [opened, Arena.ids], ?_, ?_, ?_⟩, by simp [opened], by simp [opened]⟩
  · simp [opened, Arena.ids]
  · simp [opened]
  · simp [opened, Arena.ids]

theorem Holds.released {mod : Nat} {holdings : Holdings} (holds : Holds 0 [] [] holdings) :
    Released mod holdings := by
  have outputs : holdings.pendingOutputs = ∅ :=
    Finset.eq_empty_of_forall_notMem fun number isPending =>
      not_mem_nil (holds.outputs number isPending)
  have voutputs : holdings.pendingVOutputs = ∅ :=
    Finset.eq_empty_of_forall_notMem fun number isPending =>
      not_mem_nil (holds.voutputs number isPending)
  refine ⟨outputs, voutputs, fun noReaders => ?_⟩
  have accounts := holds.accounts
  rw [noReaders] at accounts
  rcases map_eq_singleton_iff.mp accounts.ids_eq_singleton with ⟨node, only, _⟩
  have counted := accounts.counts node (only ▸ mem_singleton.mpr rfl)
  have isNode : node = ⟨holdings.current, 1, node.content⟩ := by
    rcases node with ⟨_, _, _⟩
    simp_all
  refine ⟨node.content, only.trans (congrArg (fun node => [node]) isNode), ?_, ?_⟩
  · simp [liveFiles, only, outputs]
  · simp [liveVFiles, only, voutputs]

theorem step_shifts {mod : Nat} (first : Step) (calm : ¬ first.Coupled mod) :
    Shifts (Holds 0 [] []) (step mod first) (fun _ => Holds 0 [] []) := by
  cases first with
  | other action => exact other_shifts action
  | call around => exact backgroundCall_shifts calm

theorem run_shifts {mod : Nat} (steps : List Step) (calm : ∀ step ∈ steps, ¬ step.Coupled mod) :
    Shifts (Holds 0 [] []) (run mod steps) (fun _ => Holds 0 [] []) := by
  induction steps with
  | nil => exact returns
  | cons first rest ih =>
    rw [forall_mem_cons] at calm
    exact Meets.bind (step_shifts first calm.1) fun _ => ih calm.2

/-- In a run whose background calls trigger no compaction, nothing is left over after any
step, and no reference is given up that is not there. -/
theorem run_released (mod : Nat) (version : Version Bytes Bytes) (nextFileNumber : Nat)
    (steps : List Step) (calm : ∀ step ∈ steps, ¬ step.Coupled mod) :
    Shifts (fun holdings => holdings = opened version nextFileNumber) (run mod steps)
      (fun _ => Released mod) := by
  refine (run_shifts steps calm).imp ?_ (fun _ _ holds => holds.released)
  rintro _ rfl
  exact opened_holds version nextFileNumber

/-- The surroundings of a call in which one compaction of the key tree is due at first
and one more when the value files have been compacted.  Files fail as told, and the
answers are those of a database without a waiting memtable. -/
def eager (fails : List Question) : Surroundings where
  answer question n :=
    if question = .picksCompaction then decide (n < 25)
    else (Environment.sample fails 1000).answer question n
  entries := (Environment.sample fails 1000).entries
  vinputs := (Environment.sample fails 1000).vinputs
  built _ := .empty
  others _ := []
  picksNothing _ := false

theorem run_released_decoupled :
    Shifts (fun holdings => holdings = opened .empty 5)
      (run 10 [.other .acquire, .call (eager []), .other (.release 0)])
      (fun _ => Released 10) := by
  refine run_released 10 .empty 5 _ ?_
  simp only [forall_mem_cons, not_mem_nil, false_imp_iff, implies_true, and_true]
  refine ⟨id, ?_, id⟩
  rintro ⟨_, ⟨_, coupled⟩, _⟩
  simp [eager, Environment.sample] at coupled

/-- With `MOD` 10 and coupled compactions the triggered compaction leaves its output
pending and the version it has read in the list, although nobody reads. -/
theorem triggered_compaction_leaks :
    (run 10 [.call (eager [.decoupledCompaction])] (opened .empty 5)).toOption.map
        (fun result => (result.2.pendingOutputs, result.2.readers, result.2.versions.ids,
          result.2.current)) = some ({7}, [], [2, 3], 3) ∧
      ¬ Shifts (fun holdings => holdings = opened .empty 5)
        (run 10 [.call (eager [.decoupledCompaction])]) (fun _ => Released 10) := by
  have ran : (run 10 [.call (eager [.decoupledCompaction])] (opened .empty 5)).toOption.map
      (fun result => (result.2.pendingOutputs, result.2.readers, result.2.versions.ids,
        result.2.current)) = some ({7}, [], [2, 3], 3) := by
    decide +kernel
  refine ⟨ran, fun shifts => ?_⟩
  rcases shifts _ rfl with ⟨_, holdings, reached, released⟩ | ⟨_, stopped, _⟩
  · rw [reached] at ran
    have pending : holdings.pendingOutputs = {7} :=
      congrArg Prod.fst (Option.some.inj ran)
    rw [released.outputs] at pending
    exact absurd pending (by decide)
  · rw [stopped] at ran
    cases ran

end Holdings

end Db
end Doux
