import Doux.Db.WriteProtocol

namespace Doux
namespace Db

open Foundation List

/-!
# What the writer queue guarantees

Without I/O errors the memtable holds the operations of all groups that were taken off the
queue, and of the group that the current leader has got to, and so does the log, except with
`MOD` 7 and 8, where it stays empty.  Together with the invariant of the queue this gives the
order and the sequence numbers of all writes.

That every call returns is shown by a variant.  Some step is possible until all calls
have returned, and every step makes the variant smaller, except that a wake-up without
a signal costs one step.
-/

section
variable {W : Type} [DecidableEq W] {requests : W -> WriteRequest}

namespace WriteQueue

/-- The operations that a leader has written to the log and not yet accounted for. -/
def Place.logged : Place W -> List Update
  | .inserting group => group.batch.records
  | .finishing (some group) _ => group.batch.records
  | _ => []

/-- The operations that a leader has added to the memtable and not yet accounted for. -/
def Place.inserted : Place W -> List Update
  | .finishing (some group) _ => group.batch.records
  | _ => []

/-- The leader's part, if the queue has a leader. -/
def atHead (part : Place W -> List Update) (state : WriteQueue W) : List Update :=
  state.queue.head?.elim [] (fun w => part (state.writers w).place)

/-- The operations of the groups that were taken off the queue. -/
def applied (requests : W -> WriteRequest) (state : WriteQueue W) : List Update :=
  (state.groups.flatMap Prod.fst).flatMap (fun w => (requests w).records)

/-- The operations in the log, with their sequence numbers. -/
def logged (state : WriteQueue W) : List (Nat × Update) :=
  state.log.flatMap (fun batch => WriteBatch.numbered batch.sequence batch.records)

/-- What a mode has in the log of the operations that a run has come to. -/
def inLog (mod : Nat) (operations : List (Nat × Update)) : List (Nat × Update) :=
  if WritesLog mod then operations else []

structure Content (requests : W -> WriteRequest) (mod start : Nat) (state : WriteQueue W) :
    Prop where
  last : state.lastSequence = start + (applied requests state).length
  log : state.logged = inLog mod
    (WriteBatch.numbered (start + 1) (applied requests state ++ state.atHead Place.logged))
  mem : state.mem =
    WriteBatch.numbered (start + 1) (applied requests state ++ state.atHead Place.inserted)
  status : forall w group status, (state.writers w).place = .finishing group status -> status = .ok
  alone : forall w status, (state.writers w).place = .finishing none status ->
    (requests w).records = []

variable {arrived : List W} {mod start : Nat} {state next : WriteQueue W} {w : W}

section Moved
variable {place : Place W} (moved : Moved state next w place)
include moved

/-- A step of one writer changes the leader's part only if that writer leads. -/
theorem atHead_move {part : Place W -> List Update} (queue : next.queue = state.queue)
    (same : part place = part (state.writers w).place) : next.atHead part = state.atHead part := by
  unfold atHead
  rw [queue]
  cases state.queue.head? with
  | none => rfl
  | some x =>
    simp only [Option.elim_some]
    by_cases isW : x = w
    · rw [isW, moved.self, same]
    · rw [moved.other isW]

/-- A step of one writer, given what the log and the memtable hold after it. -/
theorem Content.change (content : Content requests mod start state)
    (groups : next.groups = state.groups) (lastSequence : next.lastSequence = state.lastSequence)
    (log : next.logged = inLog mod
      (WriteBatch.numbered (start + 1) (applied requests state ++ next.atHead Place.logged)))
    (mem : next.mem =
      WriteBatch.numbered (start + 1) (applied requests state ++ next.atHead Place.inserted))
    (status : ∀ group status, place = .finishing group status -> status = .ok)
    (alone : ∀ status, place = .finishing none status -> (requests w).records = []) :
    Content requests mod start next := by
  have sameApplied : applied requests next = applied requests state := by
    unfold applied
    rw [groups]
  refine ⟨by rw [lastSequence, sameApplied]; exact content.last, sameApplied ▸ log,
    sameApplied ▸ mem, ?_, ?_⟩
  · intro x group other
    by_cases isW : x = w
    · rw [isW, moved.self]
      exact status group other
    · rw [moved.other isW]
      exact content.status x group other
  · intro x other
    by_cases isW : x = w
    · rw [isW, moved.self]
      exact alone other
    · rw [moved.other isW]
      exact content.alone x other

/-- A step of one writer that writes nothing. -/
theorem Content.move (content : Content requests mod start state) {old : Place W}
    (isOld : (state.writers w).place = old) (queue : next.queue = state.queue)
    (books : (next.groups, next.lastSequence, next.log, next.mem) =
      (state.groups, state.lastSequence, state.log, state.mem))
    (logged : Place.logged place = Place.logged old)
    (inserted : Place.inserted place = Place.inserted old)
    (status : ∀ group status, place = .finishing group status -> status = .ok)
    (alone : ∀ status, place = .finishing none status -> (requests w).records = []) :
    Content requests mod start next := by
  subst isOld
  simp only [Prod.mk.injEq] at books
  rcases books with ⟨groups, lastSequence, log, mem⟩
  refine content.change moved groups lastSequence ?_ ?_ status alone
  · rw [atHead_move moved queue logged, WriteQueue.logged, log]
    exact content.log
  · rw [atHead_move moved queue inserted, mem]
    exact content.mem

end Moved

omit [DecidableEq W] in
theorem Inv.quiet (inv : Inv requests arrived state)
    {x : W} (notHead : state.queue.head? ≠ some x) :
    Place.logged (state.writers x).place = [] ∧ Place.inserted (state.writers x).place = [] := by
  rcases (inv.fits x).other notHead with ⟨place, _⟩ | ⟨place, _⟩ | ⟨place, _⟩ |
    ⟨_, _, ⟨place, _⟩ | place⟩
  all_goals
    rw [place]
    exact ⟨rfl, rfl⟩

theorem Content.call (content : Content requests mod start state) (called : state.call w = .ok next) :
    Content requests mod start next := by
  rcases call_eq_ok called with ⟨place, rfl⟩
  have moved : Content requests mod start (state.setPlace w .awake) :=
    content.move rfl place rfl rfl rfl rfl nofun nofun
  -- a writer that comes to an empty queue leads it, and has written nothing
  have parts (part : Place W -> List Update) (awake : part .awake = []) :
      atHead part { state.setPlace w .awake with queue := state.queue ++ [w] } =
        atHead part (state.setPlace w .awake) := by
    change (state.queue ++ [w]).head?.elim [] _ = state.queue.head?.elim [] _
    cases state.queue with
    | nil =>
      change part (Function.update state.writers w { state.writers w with place := .awake } w).place
        = []
      rw [Function.update_self]
      exact awake
    | cons head tail => rfl
  refine ⟨moved.last, ?_, ?_, moved.status, moved.alone⟩
  · rw [parts _ rfl]
    exact moved.log
  · rw [parts _ rfl]
    exact moved.mem

theorem Content.makeRoom (content : Content requests mod start state)
    (made : state.makeRoom requests w .ok = .ok next) : Content requests mod start next := by
  rcases makeRoom_eq_ok made with ⟨place, ⟨_, isBatch, _, _, rfl⟩ | ⟨none, rfl⟩⟩
  · exact content.move rfl place rfl rfl rfl rfl nofun nofun
  · have noBatch : (requests w).batch = .none := by
      by_contra isBatch
      exact none ⟨rfl, isBatch⟩
    have noRecords : (requests w).records = [] := by
      rw [WriteRequest.records, noBatch]
      rfl
    refine content.move rfl place rfl rfl rfl rfl ?_ ?_
    · intro _ _ equal
      cases equal
      rfl
    · exact fun _ _ => noRecords

omit [DecidableEq W] in
theorem atHead_eq {part : Place W -> List Update} {place : Place W}
    (isHead : state.queue.head? = some w) (isPlace : (state.writers w).place = place) :
    state.atHead part = part place := by
  rw [atHead, isHead, <- isPlace]
  rfl

theorem setPlace_place (state : WriteQueue W) (w : W) (place : Place W) :
    ((state.setPlace w place).writers w).place = place := by
  change (Function.update state.writers w { state.writers w with place := place } w).place = place
  rw [Function.update_self]

variable {status : Status}

section
variable (inv : Inv requests arrived state) (content : Content requests mod start state)
include inv content

theorem Content.append (appended : state.append mod w .ok = .ok next) :
    Content requests mod start next := by
  rcases append_eq_ok appended with ⟨group, place, ⟨_, rfl⟩ | ⟨impossible, _⟩⟩
  · rcases inv.at place with ⟨_, leads⟩
    have none (part : Place W -> List Update) (empty : part (.logging group) = []) :
        state.atHead part = [] := (atHead_eq leads.head place).trans empty
    have before := content.log
    have inserted := content.mem
    rw [none _ rfl, append_nil] at before inserted
    have after (part : Place W -> List Update) :
        atHead part { state.setPlace w (.inserting group) with
          log := state.log ++ if WritesLog mod then [group.batch] else [] } =
          part (.inserting group) := atHead_eq leads.head (setPlace_place state w _)
    refine content.change rfl rfl rfl ?_ ?_ nofun nofun
    · rw [after, WriteBatch.numbered_append]
      by_cases writes : WritesLog mod
      · simp only [inLog, writes, if_true] at before ⊢
        rw [<- before]
        change (state.log ++ [group.batch]).flatMap _ =
          state.log.flatMap _ ++ WriteBatch.numbered _ group.batch.records
        rw [flatMap_append, flatMap_singleton, leads.sequence, content.last, add_right_comm]
      · simp only [inLog, writes, if_false, append_nil] at before ⊢
        exact before
    · rw [after]
      change state.mem = WriteBatch.numbered _ (_ ++ [])
      rw [append_nil]
      exact inserted
  · exact absurd rfl impossible

theorem Content.insert (inserted : state.insert w = .ok next) : Content requests mod start next := by
  rcases insert_eq_ok inserted with ⟨group, place, rfl⟩
  rcases inv.at place with ⟨_, leads⟩
  rcases leads.takes with ⟨_, takes⟩
  have written := WriteBatch.insertInto_of_wellFormed takes.wellFormed
  have none : state.atHead Place.inserted = [] := (atHead_eq leads.head place).trans rfl
  have some : state.atHead Place.logged = group.batch.records :=
    (atHead_eq leads.head place).trans rfl
  have before := content.mem
  have logged := content.log
  rw [none, append_nil] at before
  rw [some] at logged
  have after (part : Place W -> List Update) :
      atHead part { state.setPlace w (.finishing group group.batch.insertInto.2) with
        mem := state.mem ++ group.batch.insertInto.1 } =
      part (.finishing group group.batch.insertInto.2) :=
    atHead_eq leads.head (setPlace_place state w _)
  refine content.change rfl rfl rfl ?_ ?_ ?_ nofun
  · rw [after]
    exact logged
  · rw [after, WriteBatch.numbered_append, <- before]
    change state.mem ++ group.batch.insertInto.1 =
      state.mem ++ WriteBatch.numbered _ group.batch.records
    rw [written, leads.sequence, content.last, add_right_comm]
  · intro _ _ equal
    cases equal
    rw [written]

theorem Content.finished {group : Option (BatchGroup W)} {members rest : List W}
    (place : (state.writers w).place = .finishing group status)
    (taken : Taken requests state w group members rest) :
    Content requests mod start (state.finished w group status members rest) := by
  rcases finished_parts state w group status members rest with
    ⟨queue, groups, _, lastSequence, log, mem, _⟩
  have accounted : applied requests (state.finished w group status members rest) =
      applied requests state ++ members.flatMap (fun x => (requests x).records) := by
    unfold applied
    rw [groups, flatMap_append, flatMap_append, flatMap_singleton]
  have quiet (part : Place W -> List Update) (awake : part .awake = [])
      (none : ∀ x, state.queue.head? ≠ some x -> part (state.writers x).place = []) :
      (state.finished w group status members rest).atHead part = [] := by
    unfold atHead
    rw [queue]
    cases isFirst : rest.head? with
    | none => rfl
    | some x =>
      have other : x ≠ w := fun same =>
        (nodup_append.mp (inv.members_nodup taken.split)).2.2 w
          (mem_of_mem_head? taken.first) x (mem_of_mem_head? isFirst) same.symm
      simp only [Option.elim_some]
      rw [finished_writers, if_neg other]
      rcases state.left_place w status members rest x with same | isAwake
      · rw [same]
        exact none x (taken.not_head other)
      · rw [isAwake]
        exact awake
  have written : group.elim [] (fun built => built.batch.records) =
      members.flatMap (fun x => (requests x).records) := by
    cases group with
    | none =>
      rw [taken.alone rfl, flatMap_singleton, content.alone w status place]
      rfl
    | some built => exact taken.records built rfl
  have parts : state.atHead Place.logged = members.flatMap (fun x => (requests x).records) ∧
      state.atHead Place.inserted = members.flatMap (fun x => (requests x).records) := by
    rw [atHead_eq taken.head place, atHead_eq taken.head place, <- written]
    cases group <;> exact ⟨rfl, rfl⟩
  have finishing {x : W} {other : Option (BatchGroup W)} {ended : Status}
      (isPlace : ((state.finished w group status members rest).writers x).place =
        .finishing other ended) : (state.writers x).place = .finishing other ended := by
    rw [finished_writers] at isPlace
    by_cases isW : x = w
    · rw [if_pos isW] at isPlace
      cases isPlace
    · rw [if_neg isW] at isPlace
      rcases state.left_place w status members rest x with same | isAwake
      · rw [<- same]
        exact isPlace
      · rw [isAwake] at isPlace
        cases isPlace
  refine ⟨?_, ?_, ?_, fun x other ended isPlace => content.status x other ended (finishing isPlace),
    fun x ended isPlace => content.alone x ended (finishing isPlace)⟩
  · rw [accounted, length_append, <- written, lastSequence, <- add_assoc, <- content.last]
    cases group with
    | none => rfl
    | some built => exact (inv.at place).2.lastSequence
  · rw [accounted, quiet _ rfl (fun x notHead => (inv.quiet notHead).1), append_nil,
      <- parts.1, <- content.log, logged, logged, log]
  · rw [accounted, quiet _ rfl (fun x notHead => (inv.quiet notHead).2), append_nil,
      <- parts.2, <- content.mem, mem]

theorem Content.step {action : WriteAction W} (noError : action.NoError)
    (stepped : state.step requests mod action = .ok next) : Content requests mod start next := by
  cases action with
  | call w => exact content.call stepped
  | test w =>
    rcases test_eq_ok stepped with ⟨place, ⟨status, _, rfl⟩ | ⟨_, _, rfl⟩ | ⟨_, _, rfl⟩⟩
    · exact content.move rfl place rfl rfl rfl rfl nofun nofun
    · exact content.move rfl place rfl rfl rfl rfl nofun nofun
    · exact content.move rfl place rfl rfl rfl rfl nofun nofun
  | wake w =>
    rcases wake_eq_ok stepped with ⟨place, rfl⟩
    exact content.move rfl place rfl rfl rfl rfl nofun nofun
  | makeRoom w status =>
    cases noError
    exact content.makeRoom stepped
  | append w status =>
    cases noError
    exact content.append inv stepped
  | insert w => exact content.insert inv stepped
  | finish w =>
    rcases finish_cases inv stepped with ⟨_, _, _, _, place, taken, rfl⟩
    exact content.finished inv place taken

end

omit [DecidableEq W] in
theorem content_new (mod start : Nat) : Content requests mod start (new start : WriteQueue W) where
  last := rfl
  log := (ite_self _).symm
  mem := rfl
  status := nofun
  alone := nofun

theorem content_run {actions : List (WriteAction W)}
    (ran : run requests mod start actions = .ok state) (noError : ∀ action ∈ actions, action.NoError) : Content requests mod start state := by
  have kept : (∀ action ∈ [] ++ actions, action.NoError) ->
      Inv requests (arrivals ([] ++ actions)) state ∧ Content requests mod start state :=
    foldlM_invariant (fun seen state => (∀ action ∈ seen, action.NoError) ->
        Inv requests (arrivals seen) state ∧ Content requests mod start state)
      (fun seen action _ _ holds stepped all => by
        rcases holds fun other member => all other (mem_append_left _ member) with
          ⟨inv, content⟩
        rw [arrivals, filterMap_append]
        exact ⟨inv.step stepped, content.step inv (all action mem_concat_self) stepped⟩)
      (fun _ => ⟨inv_new start, content_new mod start⟩) ran
  exact (kept noError).2

/-! ## Every call returns -/

theorem test_enabled (place : (state.writers w).place = .awake) :
    ∃ next, state.test w = .ok next := by
  unfold test
  rw [place]
  cases (state.writers w).done with
  | some status => exact ⟨_, rfl⟩
  | none =>
    by_cases isHead : state.queue.head? = some w
    · exact ⟨_, if_pos isHead⟩
    · exact ⟨_, if_neg isHead⟩

/-- A step of a writer's own, which meets no I/O error, is possible. -/
def Enabled (requests : W -> WriteRequest) (mod : Nat) (state : WriteQueue W) : Prop :=
  ∃ action next, action.NoError ∧ action.own = true ∧ state.step requests mod action = .ok next

/-- The writer at the front of the queue can take a step. -/
theorem Inv.head_enabled (inv : Inv requests arrived state)
    (isHead : state.queue.head? = some w) : Enabled requests mod state := by
  have nodup := inv.nodup
  rw [inv.order] at nodup
  have queued : w ∈ state.queue := mem_of_mem_head? isHead
  cases place : (state.writers w).place with
  | idle =>
    refine absurd ?_ (inv.at place).2
    rw [inv.order]
    exact mem_append_right _ queued
  | awake =>
    rcases test_enabled place with ⟨next, tested⟩
    exact ⟨.test w, next, trivial, rfl, tested⟩
  | asleep =>
    rcases head?_eq_some_iff.mp isHead with ⟨_, split⟩
    have behind := (inv.at place).2
    rw [split] at behind nodup
    exact absurd behind (nodup_cons.mp (nodup_append.mp nodup).2.1).1
  | makingRoom =>
    have cleared := inv.tmp_empty isHead (by rw [place]; rfl)
    refine ⟨.makeRoom w .ok, ?_⟩
    by_cases isBatch : (requests w).batch ≠ none
    · rcases buildBatchGroup_takes cleared isHead isBatch state.lastSequence with
        ⟨group, _, built, _⟩
      exact ⟨_, rfl, rfl, by
        rw [WriteQueue.step, WriteQueue.makeRoom, place]
        exact (if_pos ⟨rfl, isBatch⟩).trans (bind_eq_ok.mpr ⟨group, built, rfl⟩)⟩
    · exact ⟨_, rfl, rfl, by
        rw [WriteQueue.step, WriteQueue.makeRoom, place]
        exact if_neg fun both => isBatch both.2⟩
  | logging group =>
    exact ⟨.append w .ok, _, rfl, rfl, by
      rw [WriteQueue.step, WriteQueue.append, place]
      exact if_pos (Or.inl rfl)⟩
  | inserting group =>
    exact ⟨.insert w, _, trivial, rfl, by rw [WriteQueue.step, WriteQueue.insert, place]⟩
  | finishing group status =>
    rcases inv.taken place with ⟨_, _, taken⟩
    exact ⟨.finish w, _, trivial, rfl, finish_eq inv place taken⟩
  | returned status =>
    exact absurd queued (inv.not_queued (inv.at place))

/-- As long as a call has not returned, some writer can take a step. -/
theorem Inv.progress (inv : Inv requests arrived state) (w : W) :
    Enabled requests mod state ∨ ∃ status, (w, status) ∈ state.returns := by
  cases place : (state.writers w).place with
  | idle =>
    exact Or.inl ⟨.call w, _, trivial, rfl, by rw [WriteQueue.step, WriteQueue.call, place]⟩
  | awake =>
    rcases test_enabled place with ⟨next, tested⟩
    exact Or.inl ⟨.test w, next, trivial, rfl, tested⟩
  | asleep =>
    have behind := (inv.at place).2
    cases split : state.queue with
    | nil =>
      rw [split] at behind
      cases behind
    | cons head tail => exact Or.inl (inv.head_enabled (by rw [split]; rfl))
  | makingRoom => exact Or.inl (inv.head_enabled (inv.at place).2)
  | logging group => exact Or.inl (inv.head_enabled (inv.at place).2.head)
  | inserting group => exact Or.inl (inv.head_enabled (inv.at place).2.head)
  | finishing group status =>
    cases group with
    | none => exact Or.inl (inv.head_enabled (inv.at place).2)
    | some group => exact Or.inl (inv.head_enabled (inv.at place).2.head)
  | returned status => exact Or.inr ⟨status, (inv.returned w status).mpr place⟩

/-- How far a writer is from having returned. -/
def weight (writer : Writer W) : Nat :=
  match writer.place with
  | .idle => 9
  | .awake => match writer.done with
      | none => 8
      | some _ => 1
  | .asleep => 7
  | .makingRoom => 6
  | .logging _ => 5
  | .inserting _ => 4
  | .finishing _ _ => 3
  | .returned _ => 0

omit [DecidableEq W] in
theorem weight_signal_le (writer : Writer W) : weight writer.signal ≤ weight writer + 1 := by
  unfold Writer.signal
  cases place : writer.place with
  | asleep =>
    simp only [weight, place]
    cases writer.done <;> simp
  | _ => exact Nat.le_succ _

omit [DecidableEq W] in
/-- A writer that is marked done comes closer to its return. -/
theorem weight_done_le (writer : Writer W) (status : Status) :
    weight (Writer.mk writer.place (some status)).signal ≤ weight writer := by
  rcases writer with ⟨place, done⟩
  cases place with
  | awake =>
    simp only [Writer.signal, weight]
    cases done <;> simp
  | asleep => simp [Writer.signal, weight]
  | _ => exact le_refl _

theorem weight_left_le (state : WriteQueue W) (w : W) (status : Status) (members rest : List W)
    (x : W) : weight (state.left w status members rest x) ≤
      weight (state.writers x) + if rest.head? = some x then 1 else 0 := by
  have done := weight_done_le (state.writers x) status
  unfold left
  by_cases isFirst : rest.head? = some x
  · rw [if_pos isFirst, if_pos isFirst]
    refine le_trans (weight_signal_le _) (Nat.add_le_add_right ?_ 1)
    split
    · exact done
    · exact le_refl _
  · rw [if_neg isFirst]
    split
    · exact done
    · exact le_refl _

section Variant
variable [Fintype W]

def variant (state : WriteQueue W) : Nat := ∑ w, weight (state.writers w)

theorem variant_move {place : Place W} (moved : Moved state next w place) :
    next.variant + weight (state.writers w) =
      state.variant + weight { state.writers w with place := place } := by
  have each (x : W) : weight (next.writers x) + (if x = w then weight (state.writers w) else 0) =
      weight (state.writers x) +
        if x = w then weight { state.writers w with place := place } else 0 := by
    by_cases isW : x = w
    · rw [isW, moved.self, if_pos rfl, if_pos rfl, add_comm]
    · rw [moved.other isW, if_neg isW, if_neg isW]
  have sums := Finset.sum_congr (rfl : Finset.univ = Finset.univ) (fun x _ => each x)
  rw [Finset.sum_add_distrib, Finset.sum_add_distrib] at sums
  simpa [variant] using sums

theorem variant_lt {place : Place W} (moved : Moved state next w place)
    (less : weight { state.writers w with place := place } + 1 ≤ weight (state.writers w)) :
    next.variant + 1 ≤ state.variant := by
  have changed := variant_move moved
  omega

/-- Taking a group off the queue wakes up at most one writer that is not done. -/
theorem variant_finished {group : Option (BatchGroup W)} (members rest : List W)
    (place : (state.writers w).place = .finishing group status) :
    (state.finished w group status members rest).variant + 2 ≤ state.variant := by
  have each (x : W) : weight ((state.finished w group status members rest).writers x) +
      (if x = w then 3 else 0) ≤
        weight (state.writers x) + if rest.head? = some x then 1 else 0 := by
    rw [finished_writers]
    by_cases isW : x = w
    · rw [isW, if_pos rfl, if_pos rfl]
      simp only [weight, place]
      omega
    · rw [if_neg isW, if_neg isW]
      exact weight_left_le state w status members rest x
  have woken : (∑ x : W, if rest.head? = some x then 1 else 0) ≤ 1 := by
    cases rest.head? with
    | none => simp
    | some head => simp
  have sums := Finset.sum_le_sum (s := Finset.univ) (fun x _ => each x)
  rw [Finset.sum_add_distrib, Finset.sum_add_distrib, Finset.sum_ite_eq',
    if_pos (Finset.mem_univ w)] at sums
  unfold variant
  omega

/-- Every step of a writer's own makes the variant smaller, and a wake-up without a
signal makes it larger by one. -/
theorem variant_step {action : WriteAction W} (inv : Inv requests arrived state)
    (stepped : state.step requests mod action = .ok next) :
    next.variant + action.own.toNat ≤ state.variant + (!action.own).toNat := by
  cases action with
  | call w =>
    rcases call_eq_ok stepped with ⟨place, rfl⟩
    have notDone : (state.writers w).done = none := (inv.at place).1
    exact variant_lt rfl (by simp [weight, place, notDone])
  | test w =>
    rcases test_eq_ok stepped with ⟨place, ⟨status, done, rfl⟩ | ⟨done, _, rfl⟩ | ⟨done, _, rfl⟩⟩
    · exact variant_lt rfl (by simp [weight, place, done])
    · exact variant_lt rfl (by simp [weight, place, done])
    · exact variant_lt rfl (by simp [weight, place, done])
  | wake w =>
    rcases wake_eq_ok stepped with ⟨place, rfl⟩
    have notDone : (state.writers w).done = none := (inv.at place).1
    have moved : (state.setPlace w .awake).variant + _ = _ := variant_move rfl
    simp only [weight, place, notDone] at moved
    change _ + 0 ≤ _ + 1
    omega
  | makeRoom w status =>
    rcases makeRoom_eq_ok stepped with ⟨place, ⟨_, _, group, _, rfl⟩ | ⟨_, rfl⟩⟩
    · exact variant_lt rfl (by simp [weight, place])
    · exact variant_lt rfl (by simp [weight, place])
  | append w status =>
    rcases append_eq_ok stepped with ⟨group, place, ⟨_, rfl⟩ | ⟨_, rfl⟩⟩
    · exact variant_lt rfl (by simp [weight, place])
    · exact variant_lt rfl (by simp [weight, place])
  | insert w =>
    rcases insert_eq_ok stepped with ⟨group, place, rfl⟩
    exact variant_lt rfl (by simp [weight, place])
  | finish w =>
    rcases finish_cases inv stepped with ⟨_, _, members, rest, place, _, rfl⟩
    have smaller := variant_finished members rest place
    change _ + 1 ≤ _ + 0
    omega

theorem own_steps_le {actions : List (WriteAction W)}
    (ran : run requests mod start actions = .ok state) : actions.countP WriteAction.own ≤
      9 * Fintype.card W + actions.countP (fun action => !action.own) := by
  have initial : (new start : WriteQueue W).variant = 9 * Fintype.card W := by
    change (∑ _ : W, 9) = _
    rw [Finset.sum_const, Finset.card_univ, smul_eq_mul, mul_comm]
  have kept : Inv requests (arrivals ([] ++ actions)) state ∧
      ([] ++ actions).countP WriteAction.own + state.variant ≤
        9 * Fintype.card W + ([] ++ actions).countP (fun action : WriteAction W => !action.own) :=
    foldlM_invariant (fun seen state => Inv requests (arrivals seen) state ∧
        seen.countP WriteAction.own + state.variant ≤
          9 * Fintype.card W + seen.countP (fun action => !action.own))
      (fun seen action before after holds stepped => by
        have smaller := variant_step holds.1 stepped
        rw [arrivals, filterMap_append]
        refine ⟨holds.1.step stepped, ?_⟩
        rw [countP_append, countP_append, countP_singleton, countP_singleton]
        cases own : action.own <;> simp [own] at smaller ⊢ <;> omega)
      ⟨inv_new start, le_of_eq (by rw [initial, countP_nil, countP_nil, add_comm])⟩ ran
  exact le_trans (Nat.le_add_right _ _) kept.2

/-! ## The guarantee -/

/-- What holds after any interleaving without I/O errors. -/
structure Served (requests : W -> WriteRequest) (mod start : Nat) (actions : List (WriteAction W))
    (state : WriteQueue W) : Prop where
  /-- A call enters the queue once. -/
  once : (arrivals actions).Nodup
  /-- The log, where the mode has one, and the memtable hold the operations of the first calls
  in queue order, each once and under contiguous sequence numbers, and of every call that has
  returned.  Where the mode has none the log is empty. -/
  applied : ∃ inserted logged : List W, inserted <+: logged ∧ logged <+: arrivals actions ∧
    state.logged = inLog mod (WriteBatch.numbered (start + 1)
      (logged.flatMap (fun w => (requests w).records))) ∧
    state.mem = WriteBatch.numbered (start + 1) (inserted.flatMap (fun w => (requests w).records)) ∧
    ∀ back ∈ state.returns, back.1 ∈ inserted
  /-- No sync request is in a group that a writer without sync leads. -/
  sync : ∀ group ∈ state.groups, ∀ leader ∈ group.1.head?, ∀ w ∈ group.1,
    (requests w).sync = true -> (requests leader).sync = true
  /-- No writer is in two groups. -/
  apart : (state.groups.flatMap Prod.fst).Nodup
  /-- A call returns at most once, with the status of its group. -/
  returns : (state.returns.map Prod.fst).Nodup ∧
    ∀ back ∈ state.returns, InGroup state.groups back.1 back.2
  /-- Until all calls have returned some writer can take a step of its own, and the
  number of such steps is bounded. -/
  progress : Enabled requests mod state ∨ forall w, ∃ status, (w, status) ∈ state.returns
  bounded : actions.countP WriteAction.own ≤
    9 * Fintype.card W + actions.countP (fun action => !action.own)
  /-- Once all calls have returned every batch is in the memtable, and in the log where the
  mode has one. -/
  complete : (forall w, ∃ status, (w, status) ∈ state.returns) ->
    state.logged = inLog mod (WriteBatch.numbered (start + 1)
      ((arrivals actions).flatMap (fun w => (requests w).records))) ∧
    state.mem = WriteBatch.numbered (start + 1)
      ((arrivals actions).flatMap (fun w => (requests w).records))

section
omit [DecidableEq W] [Fintype W]

/-- What the leader has written are the operations of the first writers of the queue. -/
theorem Inv.atHead_members (inv : Inv requests arrived state) :
    ∃ inserted logged : List W, inserted <+: logged ∧ logged <+: state.queue ∧
      state.atHead Place.logged = logged.flatMap (fun w => (requests w).records) ∧
      state.atHead Place.inserted = inserted.flatMap (fun w => (requests w).records) := by
  cases isHead : state.queue.head? with
  | none =>
    rw [atHead, atHead, isHead]
    exact ⟨[], [], nil_prefix, nil_prefix, rfl, rfl⟩
  | some w =>
    rw [atHead_eq isHead rfl, atHead_eq isHead rfl]
    cases place : (state.writers w).place with
    | inserting group =>
      rcases (inv.at place).2.takes with ⟨members, takes⟩
      exact ⟨[], members, nil_prefix, takes.taken, takes.records, rfl⟩
    | finishing group status =>
      cases group with
      | none => exact ⟨[], [], nil_prefix, nil_prefix, rfl, rfl⟩
      | some group =>
        rcases (inv.at place).2.takes with ⟨members, takes⟩
        exact ⟨members, members, prefix_rfl, takes.taken, takes.records, takes.records⟩
    | _ => exact ⟨[], [], nil_prefix, nil_prefix, rfl, rfl⟩

theorem Inv.returned_inGroup (inv : Inv requests arrived state)
    (back : (w, status) ∈ state.returns) : InGroup state.groups w status :=
  inv.at ((inv.returned w status).mp back)

theorem Inv.queue_nil (inv : Inv requests arrived state)
    (all : ∀ w, ∃ status, (w, status) ∈ state.returns) : state.queue = [] := by
  refine eq_nil_iff_forall_not_mem.mpr fun w => ?_
  rcases all w with ⟨_, back⟩
  exact inv.not_queued (inv.returned_inGroup back)

end

omit [Fintype W] in
theorem Inv.enabled_or_returned (inv : Inv requests arrived state) (mod : Nat) :
    Enabled requests mod state ∨ forall w, ∃ status, (w, status) ∈ state.returns := by
  by_cases enabled : Enabled requests mod state
  · exact Or.inl enabled
  · exact Or.inr fun w => (inv.progress w).resolve_left enabled

/-- Every interleaving of the calls without I/O errors keeps the guarantee. -/
theorem run_served {mod start : Nat} {actions : List (WriteAction W)} {state : WriteQueue W}
    (ran : run requests mod start actions = .ok state)
    (noError : ∀ action ∈ actions, action.NoError) : Served requests mod start actions state := by
  have inv := inv_run ran
  have content := content_run ran noError
  have nodup := inv.nodup
  rw [inv.order] at nodup
  refine ⟨inv.nodup, ?_, inv.sync, (nodup_append.mp nodup).1,
    ⟨inv.returns, fun back member => inv.returned_inGroup member⟩, inv.enabled_or_returned mod,
    own_steps_le ran, ?_⟩
  · rcases inv.atHead_members with ⟨inserted, logged, later, queued, log, mem⟩
    refine ⟨state.groups.flatMap Prod.fst ++ inserted, state.groups.flatMap Prod.fst ++ logged,
      prefix_append_right_inj _ |>.mpr later, ?_, ?_, ?_, ?_⟩
    · rw [inv.order]
      exact (prefix_append_right_inj _).mpr queued
    · rw [content.log, log, flatMap_append]
      rfl
    · rw [content.mem, mem, flatMap_append]
      rfl
    · intro _ member
      rcases inv.returned_inGroup member with ⟨group, isGroup, inGroup, _⟩
      exact mem_append_left _ (mem_flatMap.mpr ⟨group, isGroup, inGroup⟩)
  · intro all
    have empty := inv.queue_nil all
    have none (part : Place W -> List Update) : state.atHead part = [] := by
      rw [atHead, empty]
      rfl
    have log := content.log
    have mem := content.mem
    rw [none, append_nil] at log mem
    rw [inv.order, empty, append_nil]
    exact ⟨log, mem⟩

/-- A writer that has the front of the queue builds a group, writes it or ends it. -/
def Place.Working : Place W -> Prop
  | .makingRoom | .logging _ | .inserting _ | .finishing _ _ => True
  | _ => False

omit [Fintype W] in
/-- Whatever fails along an interleaving, groups are taken off the queue in the order of the
calls, only the writer at the front works, a call returns at most once and with the status
of its group, and until all calls have returned some writer can take a step. -/
theorem run_serialized {mod start : Nat} {actions : List (WriteAction W)} {state : WriteQueue W}
    (ran : run requests mod start actions = .ok state) :
    arrivals actions = state.groups.flatMap Prod.fst ++ state.queue ∧
      (∀ w, Place.Working (state.writers w).place -> state.queue.head? = some w) ∧
      (state.returns.map Prod.fst).Nodup ∧
      (∀ back ∈ state.returns, InGroup state.groups back.1 back.2) ∧
      (Enabled requests mod state ∨ forall w, ∃ status, (w, status) ∈ state.returns) := by
  have inv := inv_run ran
  refine ⟨inv.order, fun w working => ?_, inv.returns, fun _ => inv.returned_inGroup,
    inv.enabled_or_returned mod⟩
  by_contra notHead
  rcases (inv.fits w).other notHead with
    ⟨place, _⟩ | ⟨place, _⟩ | ⟨place, _⟩ | ⟨_, _, ⟨place, _⟩ | place⟩ <;>
  · rw [place] at working
    exact working

end Variant

/-- Two calls with one operation each, the second with sync. -/
def twoCalls (w : Fin 2) : WriteRequest where
  batch := some ⟨0, 1, [.put ⟨[1]⟩ [UInt8.ofNat w.val]]⟩
  sync := w = 1
  wellFormed := by
    intro _ same
    cases same
    rfl

/-- The second call arrives while the first makes room, and is a group of its own.  The log
append of the first group ends with the given status. -/
def twoCallsActions (first : Status) : List (WriteAction (Fin 2)) :=
  [.call 0, .test 0, .call 1, .test 1, .makeRoom 0 .ok, .append 0 first] ++
    (if first = .ok then [.insert 0] else []) ++
    [.finish 0, .test 1, .makeRoom 1 .ok, .append 1 .ok, .insert 1, .finish 1]

theorem run_served_twoCalls : ∃ state, run twoCalls 0 0 (twoCallsActions .ok) = .ok state ∧
    Served twoCalls 0 0 (twoCallsActions .ok) state :=
  ⟨_, rfl, run_served rfl (by simp [twoCallsActions, WriteAction.NoError])⟩

/-- With `MOD` 8 both calls return and both operations are in the memtable, but none is in the
log. -/
theorem run_writes_no_log : ∃ state, run twoCalls 8 0 (twoCallsActions .ok) = .ok state ∧
    state.returns = [(0, .ok), (1, .ok)] ∧ state.log = [] ∧
    state.mem.map Prod.fst = [1, 2] :=
  ⟨_, rfl, rfl, rfl, rfl⟩

/-- The log append of the first group fails, and that of the second one succeeds: each call
returns with the status of its own group. -/
theorem run_serialized_failed : ∃ state,
    run twoCalls 0 0 (twoCallsActions (.ioError "append")) = .ok state ∧
    state.returns = [(0, .ioError "append"), (1, .ok)] ∧
    arrivals (twoCallsActions (.ioError "append")) = state.groups.flatMap Prod.fst ++ state.queue ∧
    ∀ back ∈ state.returns, InGroup state.groups back.1 back.2 := by
  have ran : ∃ state, run twoCalls 0 0 (twoCallsActions (.ioError "append")) = .ok state ∧
      state.returns = [(0, .ioError "append"), (1, .ok)] := ⟨_, rfl, rfl⟩
  rcases ran with ⟨state, ran, returns⟩
  exact ⟨state, ran, returns, (run_serialized ran).1, (run_serialized ran).2.2.2.1⟩

end WriteQueue

end
end Db
end Doux
