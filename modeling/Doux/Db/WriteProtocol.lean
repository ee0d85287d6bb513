import Doux.Db.WriteQueue

namespace Doux
namespace Db

open Foundation List

/-!
# The invariant of the writer queue

One invariant says where each writer stands with respect to the queue and the history.
It holds in every interleaving, also when the log fails.
-/

section
variable {W : Type} {requests : W -> WriteRequest}

/-- The writer is in a group that ended with the given status. -/
def InGroup (groups : List (List W × Status)) (w : W) (status : Status) : Prop :=
  ∃ group ∈ groups, w ∈ group.1 ∧ group.2 = status

namespace WriteQueue

/-- The writer leads the queue with the group it has built. -/
structure Leads (requests : W -> WriteRequest) (state : WriteQueue W) (w : W)
    (group : BatchGroup W) : Prop where
  takes : ∃ members, group.Takes requests state.queue w members
  sequence : group.batch.sequence = state.lastSequence + 1
  lastSequence : group.lastSequence = state.lastSequence + group.batch.records.length

/-- Where a writer stands.  A sleeping writer is never at the front of the queue, so no
wake-up is lost. -/
def Fits (requests : W -> WriteRequest) (arrived : List W) (state : WriteQueue W) (w : W)
    (writer : Writer W) : Prop :=
  match writer.place with
  | .idle => writer.done = none ∧ w ∉ arrived
  | .awake => (writer.done = none ∧ w ∈ state.queue) ∨
      (∃ status, writer.done = some status ∧ InGroup state.groups w status)
  | .asleep => writer.done = none ∧ w ∈ state.queue.tail
  | .makingRoom => writer.done = none ∧ state.queue.head? = some w
  | .logging group => writer.done = none ∧ Leads requests state w group
  | .inserting group => writer.done = none ∧ Leads requests state w group
  | .finishing none _ => writer.done = none ∧ state.queue.head? = some w
  | .finishing (some group) _ => writer.done = none ∧ Leads requests state w group
  | .returned status => InGroup state.groups w status

/-- The group that a writer holds, if it has built one. -/
def Place.group : Place W -> Option (BatchGroup W)
  | .logging group => some group
  | .inserting group => some group
  | .finishing group _ => group
  | _ => none

structure Inv (requests : W -> WriteRequest) (arrived : List W) (state : WriteQueue W) : Prop where
  order : arrived = state.groups.flatMap Prod.fst ++ state.queue
  nodup : arrived.Nodup
  fits : forall w, Fits requests arrived state w (state.writers w)
  tmp : state.tmpBatch = .empty ∨ ∃ w ∈ state.queue.head?,
    ∃ group ∈ Place.group (state.writers w).place, group.inTmp = true
  sync : ∀ group ∈ state.groups, ∀ leader ∈ group.1.head?, ∀ w ∈ group.1,
    (requests w).sync = true -> (requests leader).sync = true
  returns : (state.returns.map Prod.fst).Nodup
  returned : forall w status,
    (w, status) ∈ state.returns <-> (state.writers w).place = .returned status

variable {arrived added : List W} {state next : WriteQueue W} {w : W} {group : BatchGroup W}
  {writer : Writer W} {status : Status}

theorem Leads.head (leads : Leads requests state w group) : state.queue.head? = some w := by
  rcases leads.takes with ⟨_, takes⟩
  rcases takes.taken with ⟨_, equal⟩
  rw [<- equal, head?_append, takes.first]
  rfl

/-- A writer that is not at the front of the queue waits, or has nothing left to do but
to return. -/
theorem Fits.other (fits : Fits requests arrived state w writer)
    (notHead : state.queue.head? ≠ some w) :
    (writer.place = .idle ∧ writer.done = none ∧ w ∉ arrived) ∨
    (writer.place = .awake ∧ writer.done = none ∧ w ∈ state.queue) ∨
    (writer.place = .asleep ∧ writer.done = none ∧ w ∈ state.queue.tail) ∨
    (∃ status, InGroup state.groups w status ∧
      (writer.place = .awake ∧ writer.done = some status ∨ writer.place = .returned status)) := by
  rcases writer with ⟨place, done⟩
  cases place with
  | idle => exact Or.inl ⟨rfl, fits⟩
  | awake =>
    rcases fits with waits | ⟨status, done, inGroup⟩
    · exact Or.inr (Or.inl ⟨rfl, waits⟩)
    · exact Or.inr (Or.inr (Or.inr ⟨status, inGroup, Or.inl ⟨rfl, done⟩⟩))
  | asleep => exact Or.inr (Or.inr (Or.inl ⟨rfl, fits⟩))
  | makingRoom => exact absurd fits.2 notHead
  | logging group => exact absurd fits.2.head notHead
  | inserting group => exact absurd fits.2.head notHead
  | finishing group status =>
    cases group with
    | none => exact absurd fits.2 notHead
    | some group => exact absurd fits.2.head notHead
  | returned status => exact Or.inr (Or.inr (Or.inr ⟨status, fits, Or.inr rfl⟩))

/-- The queue grows at its back, and the history stays. -/
structure Extends (state next : WriteQueue W) (added : List W) : Prop where
  queue : next.queue = state.queue ++ added
  groups : next.groups = state.groups
  lastSequence : next.lastSequence = state.lastSequence

section Extended
variable (extended : Extends state next added)
include extended

theorem Extends.head (head : state.queue.head? = some w) : next.queue.head? = some w := by
  rw [extended.queue, head?_append, head]
  rfl

theorem Leads.extend (leads : Leads requests state w group) : Leads requests next w group := by
  rcases leads.takes with ⟨members, takes⟩
  refine ⟨⟨members, takes.first, takes.last, ?_, takes.records, takes.wellFormed, takes.sync⟩,
    ?_, ?_⟩
  · rw [extended.queue]
    exact takes.taken.trans (prefix_append _ _)
  · rw [extended.lastSequence]
    exact leads.sequence
  · rw [extended.lastSequence]
    exact leads.lastSequence

theorem Fits.extend (fits : Fits requests arrived state w writer) (fresh : w ∉ added) :
    Fits requests (arrived ++ added) next w writer := by
  rcases writer with ⟨place, _⟩
  cases place with
  | idle => exact ⟨fits.1, fun member => (mem_append.mp member).elim fits.2 fresh⟩
  | awake =>
    unfold Fits
    rw [extended.queue, extended.groups]
    exact fits.imp_left fun waits => ⟨waits.1, mem_append_left _ waits.2⟩
  | asleep =>
    refine ⟨fits.1, ?_⟩
    rw [extended.queue, tail_append_of_ne_nil (ne_nil_of_mem (mem_of_mem_tail fits.2))]
    exact mem_append_left _ fits.2
  | makingRoom => exact ⟨fits.1, extended.head fits.2⟩
  | logging group => exact ⟨fits.1, fits.2.extend extended⟩
  | inserting group => exact ⟨fits.1, fits.2.extend extended⟩
  | finishing group status =>
    cases group with
    | none => exact ⟨fits.1, extended.head fits.2⟩
    | some group => exact ⟨fits.1, fits.2.extend extended⟩
  | returned status =>
    unfold Fits
    rw [extended.groups]
    exact fits

end Extended

theorem Inv.at {place : Place W} (inv : Inv requests arrived state)
    (isPlace : (state.writers w).place = place) :
    Fits requests arrived state w ⟨place, (state.writers w).done⟩ := by
  rw [<- isPlace]
  exact inv.fits w

theorem Inv.not_queued (inv : Inv requests arrived state)
    (inGroup : InGroup state.groups w status) :
    w ∉ state.queue := by
  rcases inGroup with ⟨group, isGroup, inGroup, _⟩
  have nodup := inv.nodup
  rw [inv.order] at nodup
  exact fun queued => (nodup_append.mp nodup).2.2 w
    (mem_flatMap.mpr ⟨group, isGroup, inGroup⟩) w queued rfl

theorem Inv.tmp_empty (inv : Inv requests arrived state) (isHead : state.queue.head? = some w)
    (none : Place.group (state.writers w).place = none) : state.tmpBatch = .empty := by
  rcases inv.tmp with empty | ⟨_, isFirst, _, held, _⟩
  · exact empty
  · rw [isHead] at isFirst
    cases isFirst
    rw [none] at held
    cases held

variable {x : W} {members rest : List W}

/-- The writers of the group that a finishing leader takes off the queue. -/
structure Taken (requests : W -> WriteRequest) (state : WriteQueue W) (w : W)
    (group : Option (BatchGroup W)) (members rest : List W) : Prop where
  split : state.queue = members ++ rest
  first : members.head? = some w
  last : members.getLast? = some (group.elim w BatchGroup.lastWriter)
  sync : ∀ x ∈ members, (requests x).sync = true -> (requests w).sync = true
  records : ∀ built ∈ group, built.batch.records = members.flatMap (fun x => (requests x).records)
  alone : group = none -> members = [w]

theorem Taken.head {group : Option (BatchGroup W)}
    (taken : Taken requests state w group members rest) : state.queue.head? = some w := by
  rw [taken.split, head?_append, taken.first]
  rfl

theorem Taken.not_head {group : Option (BatchGroup W)} (other : x ≠ w)
    (taken : Taken requests state w group members rest) : state.queue.head? ≠ some x :=
  fun isHead => other (Option.some.inj (isHead.symm.trans taken.head))

theorem Inv.taken {group : Option (BatchGroup W)} (inv : Inv requests arrived state)
    (place : (state.writers w).place = .finishing group status) :
    ∃ members rest, Taken requests state w group members rest := by
  have fits := inv.at place
  cases group with
  | none =>
    rcases head?_eq_some_iff.mp fits.2 with ⟨rest, split⟩
    refine ⟨[w], rest, split, rfl, rfl, ?_, nofun, fun _ => rfl⟩
    exact forall_mem_singleton.mpr id
  | some group =>
    rcases fits.2.takes with ⟨members, takes⟩
    rcases takes.taken with ⟨rest, split⟩
    refine ⟨members, rest, split.symm, takes.first, takes.last, takes.sync, ?_, nofun⟩
    intro _ same
    cases same
    exact takes.records

theorem Inv.members_nodup (inv : Inv requests arrived state)
    (split : state.queue = members ++ rest) : (members ++ rest).Nodup := by
  have nodup := inv.nodup
  rw [inv.order, split] at nodup
  exact (nodup_append.mp nodup).2.1

theorem signal_returned (writer : Writer W) (status : Status) :
    writer.signal.place = .returned status <-> writer.place = .returned status := by
  unfold Writer.signal
  cases place : writer.place <;> simp [place]

theorem signal_place (writer : Writer W) :
    writer.signal.place = writer.place ∨ writer.signal.place = .awake := by
  unfold Writer.signal
  cases place : writer.place <;> simp [place]

theorem inv_new (lastSequence : Nat) : Inv requests [] (new lastSequence : WriteQueue W) where
  order := rfl
  nodup := nodup_nil
  fits := fun _ => ⟨rfl, not_mem_nil⟩
  tmp := Or.inl rfl
  sync := nofun
  returns := nodup_nil
  returned := fun _ _ => ⟨nofun, nofun⟩

variable [DecidableEq W]

/-- One writer has moved to another place, and the others stand where they stood. -/
def Moved (state next : WriteQueue W) (w : W) (place : Place W) : Prop :=
  next.writers = Function.update state.writers w { state.writers w with place := place }

section Moved
variable {place : Place W} (moved : Moved state next w place)
include moved

theorem Moved.self : next.writers w = { state.writers w with place := place } :=
  (congrFun moved w).trans (Function.update_self ..)

theorem Moved.other (other : x ≠ w) : next.writers x = state.writers x :=
  (congrFun moved x).trans (Function.update_of_ne other ..)

variable (inv : Inv requests arrived state)
include inv

/-- One writer moves to another place, and nothing else changes that the invariant
speaks of. -/
theorem Inv.move (extended : Extends state next added)
    (fresh : ∀ x ∈ added, x = w ∧ x ∉ arrived) (nodup : added.Nodup)
    (fits : Fits requests (arrived ++ added) next w { state.writers w with place := place })
    (tmp : next.tmpBatch = .empty ∨ ∃ x ∈ next.queue.head?,
      ∃ group ∈ Place.group (next.writers x).place, group.inTmp = true)
    (returns : next.returns = state.returns)
    (before : ∀ status, (state.writers w).place ≠ .returned status)
    (after : ∀ status, place ≠ .returned status) : Inv requests (arrived ++ added) next where
  order := by
    rw [extended.groups, extended.queue, <- append_assoc, <- inv.order]
  nodup := nodup_append.mpr ⟨inv.nodup, nodup, fun x isOld y isNew same =>
    (fresh y isNew).2 (same ▸ isOld)⟩
  fits := by
    intro x
    by_cases isW : x = w
    · rw [isW, moved.self]
      exact fits
    · rw [moved.other isW]
      exact (inv.fits x).extend extended fun isNew => isW (fresh x isNew).1
  tmp := tmp
  sync := by
    rw [extended.groups]
    exact inv.sync
  returns := by
    rw [returns]
    exact inv.returns
  returned := by
    intro x status
    rw [returns, inv.returned]
    by_cases isW : x = w
    · rw [isW, moved.self]
      exact ⟨fun isReturned => absurd isReturned (before status),
        fun isReturned => absurd isReturned (after status)⟩
    · rw [moved.other isW]

theorem Inv.tmp_move (extended : Extends state next added) (same : next.tmpBatch = state.tmpBatch)
    (group : Place.group place = Place.group (state.writers w).place) :
    next.tmpBatch = .empty ∨ ∃ x ∈ next.queue.head?,
      ∃ group ∈ Place.group (next.writers x).place, group.inTmp = true := by
  rcases inv.tmp with empty | ⟨x, isHead, held, isHeld, inTmp⟩
  · exact Or.inl (same.trans empty)
  · refine Or.inr ⟨x, extended.head isHead, held, ?_, inTmp⟩
    by_cases isW : x = w
    · rw [isW, moved.self]
      rw [isW] at isHeld
      exact group ▸ isHeld
    · rw [moved.other isW]
      exact isHeld

/-- A move of one writer that leaves the queue as it is, its own group and the
temporary batch included. -/
theorem Inv.moveInPlace {old : Place W} (isOld : (state.writers w).place = old)
    (extended : Extends state next [])
    (fits : Fits requests arrived next w { state.writers w with place := place })
    (same : next.tmpBatch = state.tmpBatch) (returns : next.returns = state.returns)
    (group : Place.group place = Place.group old) (before : ∀ status, old ≠ .returned status)
    (after : ∀ status, place ≠ .returned status) : Inv requests arrived next := by
  subst isOld
  rw [<- append_nil arrived] at fits ⊢
  exact inv.move moved extended nofun nodup_nil fits
    (inv.tmp_move moved extended same group) returns before after

end Moved

theorem Inv.returns_snoc (inv : Inv requests arrived state)
    (before : ∀ other, (state.writers w).place ≠ .returned other) (next : WriteQueue W)
    (returns : next.returns = state.returns ++ [(w, status)])
    (self : (next.writers w).place = .returned status) (others : ∀ x other, x ≠ w ->
      ((next.writers x).place = .returned other <-> (state.writers x).place = .returned other)) :
    (next.returns.map Prod.fst).Nodup ∧ ∀ x other,
      (x, other) ∈ next.returns <-> (next.writers x).place = .returned other := by
  rw [returns]
  simp only [map_append, mem_append, mem_singleton, Prod.mk.injEq]
  constructor
  · refine nodup_append.mpr ⟨inv.returns, nodup_singleton w, fun x isOld y isNew same => ?_⟩
    rw [mem_singleton.mp isNew] at same
    rcases mem_map.mp (same ▸ isOld) with ⟨⟨x, other⟩, member, rfl⟩
    exact before other ((inv.returned x other).mp member)
  · intro x other
    by_cases isW : x = w
    · rw [isW, self]
      constructor
      · rintro (old | ⟨_, same⟩)
        · exact absurd ((inv.returned w other).mp old) (before other)
        · rw [same]
      · intro equal
        cases equal
        exact Or.inr ⟨rfl, rfl⟩
    · rw [others x other isW]
      exact ⟨fun either => either.elim (inv.returned x other).mp fun same => absurd same.1 isW,
        fun placed => Or.inl ((inv.returned x other).mpr placed)⟩

section Steps
variable (inv : Inv requests arrived state)
include inv

theorem Inv.call (called : state.call w = .ok next) : Inv requests (arrived ++ [w]) next := by
  rcases call_eq_ok called with ⟨place, rfl⟩
  rcases inv.at place with ⟨notDone, fresh⟩
  have moved : Moved state { state.setPlace w .awake with queue := state.queue ++ [w] } w .awake :=
    rfl
  have extended : Extends state
      { state.setPlace w .awake with queue := state.queue ++ [w] } [w] := ⟨rfl, rfl, rfl⟩
  refine inv.move moved extended (fun x isNew => ?_) (nodup_singleton w) ?_
    (inv.tmp_move moved extended rfl (by rw [place]; rfl)) rfl (by rw [place]; nofun) nofun
  · rw [mem_singleton.mp isNew]
    exact ⟨rfl, fresh⟩
  · exact Or.inl ⟨notDone, mem_concat_self⟩

theorem Inv.giveBack (place : (state.writers w).place = .awake)
    (done : (state.writers w).done = some status) :
    Inv requests arrived (state.giveBack w status) := by
  have inGroup : InGroup state.groups w status := by
    rcases inv.at place with ⟨impossible, _⟩ | ⟨other, same, inGroup⟩
    · rw [done] at impossible
      cases impossible
    · rw [done] at same
      cases same
      exact inGroup
  have extended : Extends state (state.giveBack w status) [] :=
    ⟨(append_nil _).symm, rfl, rfl⟩
  have moved : Moved state (state.giveBack w status) w (.returned status) := rfl
  have history := inv.returns_snoc (by rw [place]; nofun) (state.giveBack w status) rfl
    (by rw [moved.self]) (fun x other isOther => by rw [moved.other isOther])
  refine ⟨inv.order, inv.nodup, fun x => ?_, inv.tmp_move moved extended rfl (by rw [place]; rfl),
    inv.sync, history.1, history.2⟩
  by_cases isW : x = w
  · rw [isW, moved.self]
    exact inGroup
  · rw [moved.other isW, <- append_nil arrived]
    exact (inv.fits x).extend extended not_mem_nil

theorem Inv.test (tested : state.test w = .ok next) : Inv requests arrived next := by
  have extended (target : Place W) : Extends state (state.setPlace w target) [] :=
    ⟨(append_nil _).symm, rfl, rfl⟩
  rcases test_eq_ok tested with ⟨place, ⟨_, done, rfl⟩ | ⟨done, isHead, rfl⟩ | ⟨done, notHead, rfl⟩⟩
  · exact inv.giveBack place done
  · exact inv.moveInPlace rfl place (extended .makingRoom) ⟨done, isHead⟩ rfl rfl rfl nofun nofun
  · have behind : w ∈ state.queue.tail := by
      rcases inv.at place with ⟨_, waits⟩ | ⟨_, impossible, _⟩
      · cases split : state.queue with
        | nil =>
          rw [split] at waits
          cases waits
        | cons head tail =>
          rw [split] at waits notHead
          exact (mem_cons.mp waits).resolve_left fun same => notHead (congrArg some same.symm)
      · rw [done] at impossible
        cases impossible
    exact inv.moveInPlace rfl place (extended .asleep) ⟨done, behind⟩ rfl rfl rfl nofun nofun

theorem Inv.wake (woken : state.wake w = .ok next) : Inv requests arrived next := by
  rcases wake_eq_ok woken with ⟨place, rfl⟩
  rcases inv.at place with ⟨notDone, behind⟩
  have moved : Moved state (state.setPlace w .awake) w .awake := rfl
  exact inv.moveInPlace moved place ⟨(append_nil _).symm, rfl, rfl⟩
    (Or.inl ⟨notDone, mem_of_mem_tail behind⟩) rfl rfl rfl nofun nofun

theorem Inv.makeRoom (made : state.makeRoom requests w status = .ok next) :
    Inv requests arrived next := by
  rcases makeRoom_eq_ok made with ⟨place, ⟨_, isBatch, group, built, rfl⟩ | ⟨_, rfl⟩⟩
  · rcases inv.at place with ⟨notDone, isHead⟩
    have cleared := inv.tmp_empty isHead (by rw [place]; rfl)
    rcases buildBatchGroup_takes cleared isHead isBatch state.lastSequence with
      ⟨same, members, isBuilt, takes, sequence, last⟩
    rw [built] at isBuilt
    cases isBuilt
    have moved : Moved state { state.setPlace w (.logging group) with
        tmpBatch := if group.inTmp = true then group.batch else state.tmpBatch } w
          (.logging group) := rfl
    rw [<- append_nil arrived]
    refine inv.move moved ⟨(append_nil _).symm, rfl, rfl⟩ nofun nodup_nil
      ⟨notDone, ⟨members, takes⟩, sequence, last⟩ ?_ rfl (by rw [place]; nofun) nofun
    by_cases inTmp : group.inTmp = true
    · exact Or.inr ⟨w, isHead, group, by rw [moved.self]; rfl, inTmp⟩
    · exact Or.inl ((if_neg inTmp).trans cleared)
  · have moved : Moved state (state.setPlace w (.finishing none status)) w
        (.finishing none status) := rfl
    exact inv.moveInPlace moved place ⟨(append_nil _).symm, rfl, rfl⟩ (inv.at place) rfl rfl rfl
      nofun nofun

theorem Inv.append {mod : Nat} (appended : state.append mod w status = .ok next) :
    Inv requests arrived next := by
  have extended {log : List WriteBatch} (target : Place W) :
      Extends state { state.setPlace w target with log := log } [] :=
    ⟨(append_nil _).symm, rfl, rfl⟩
  rcases append_eq_ok appended with ⟨group, place, ⟨_, rfl⟩ | ⟨_, rfl⟩⟩
  · rcases inv.at place with ⟨notDone, leads⟩
    exact inv.moveInPlace rfl place (extended (.inserting group))
      ⟨notDone, leads.extend (extended _)⟩ rfl rfl rfl nofun nofun
  · rcases inv.at place with ⟨notDone, leads⟩
    exact inv.moveInPlace rfl place (extended (.finishing (some group) status))
      ⟨notDone, leads.extend (extended _)⟩ rfl rfl rfl nofun nofun

theorem Inv.insert (inserted : state.insert w = .ok next) : Inv requests arrived next := by
  rcases insert_eq_ok inserted with ⟨group, place, rfl⟩
  rcases inv.at place with ⟨notDone, leads⟩
  have extended : Extends state
      { state.setPlace w (.finishing (some group) group.batch.insertInto.2) with
        mem := state.mem ++ group.batch.insertInto.1 } [] :=
    ⟨(append_nil _).symm, rfl, rfl⟩
  exact inv.moveInPlace rfl place extended ⟨notDone, leads.extend extended⟩ rfl rfl rfl nofun nofun

end Steps

/-! ## Taking a group off the queue -/

theorem markDone_apply (leader ready x : W) (status : Status) (writers : W -> Writer W) :
    markDone leader status writers ready x =
      if x = ready ∧ x ≠ leader then (Writer.mk (writers x).place (some status)).signal
      else writers x := by
  unfold markDone
  by_cases isReady : x = ready
  · subst isReady
    by_cases isLeader : x = leader
    · rw [if_pos isLeader, if_neg (fun both => both.2 isLeader)]
    · rw [if_neg isLeader, if_pos ⟨rfl, isLeader⟩, Function.update_self]
  · rw [if_neg (c := x = ready ∧ x ≠ leader) (fun both => isReady both.1)]
    by_cases isLeader : ready = leader
    · rw [if_pos isLeader]
    · rw [if_neg isLeader, Function.update_of_ne isReady]

theorem popReady_eq {leader last : W}
    {writers : W -> Writer W} (nodup : members.Nodup) (isLast : members.getLast? = some last) :
    popReady leader last status (members ++ rest) writers =
      .ok (rest, fun x => if x ∈ members ∧ x ≠ leader then
        (Writer.mk (writers x).place (some status)).signal else writers x) := by
  induction members generalizing writers with
  | nil => cases isLast
  | cons ready members ih =>
    rw [cons_append, popReady]
    cases members with
    | nil =>
      have isReady : ready = last := Option.some.inj isLast
      rw [if_pos isReady]
      refine congrArg (fun after => Except.ok (rest, after)) (funext fun x => ?_)
      rw [markDone_apply]
      simp
    | cons second members =>
      have fresh := (nodup_cons.mp nodup).1
      have isLater : (second :: members).getLast? = some last := isLast
      have differs : ready ≠ last := fun same =>
        fresh (same ▸ mem_of_getLast? isLater)
      rw [if_neg differs, ih (nodup_cons.mp nodup).2 isLater]
      refine congrArg (fun after => Except.ok (rest, after)) (funext fun x => ?_)
      rw [markDone_apply]
      by_cases isReady : x = ready
      · simp [isReady, fresh]
      · simp [isReady]

/-- The state that a finishing leader leaves behind. -/
def finished (state : WriteQueue W) (w : W) (group : Option (BatchGroup W)) (status : Status)
    (members rest : List W) : WriteQueue W :=
  ({ state.settle group with
    queue := rest
    writers := fun x => if x ∈ members ∧ x ≠ w then
      (Writer.mk (state.writers x).place (some status)).signal else state.writers x
    groups := state.groups ++ [(members, status)] } : WriteQueue W).signalHead.giveBack w status

theorem finish_eq {group : Option (BatchGroup W)}
    (inv : Inv requests arrived state) (place : (state.writers w).place = .finishing group status)
    (taken : Taken requests state w group members rest) :
    state.finish w = .ok (state.finished w group status members rest) := by
  have nodup := (nodup_append.mp (inv.members_nodup taken.split)).1
  have prefixed : state.queue.take (state.queue.length - rest.length) = members := by
    rw [taken.split, length_append, Nat.add_sub_cancel, take_left]
  unfold finish
  rw [place]
  dsimp only
  rw [taken.split, popReady_eq nodup taken.last, <- taken.split]
  change Except.ok _ = _
  rw [prefixed]
  rfl

theorem signalHead_writers (state : WriteQueue W) (x : W) : state.signalHead.writers x =
      if state.queue.head? = some x then (state.writers x).signal else state.writers x := by
  unfold signalHead
  cases state.queue with
  | nil => rfl
  | cons head tail =>
    change Function.update state.writers head (state.writers head).signal x = _
    by_cases isHead : x = head
    · rw [isHead, Function.update_self, head?_cons, if_pos rfl]
    · rw [Function.update_of_ne isHead, head?_cons,
        if_neg (fun same => isHead (Option.some.inj same).symm)]

/-- A writer other than the leader, after the group has left the queue. -/
def left (state : WriteQueue W) (w : W) (status : Status) (members rest : List W) (x : W) :
    Writer W :=
  let marked := if x ∈ members ∧ x ≠ w then (Writer.mk (state.writers x).place (some status)).signal
    else state.writers x
  if rest.head? = some x then marked.signal else marked

theorem left_returned (state : WriteQueue W) (w : W) (status other : Status) (members rest : List W)
    (x : W) : (state.left w status members rest x).place = .returned other <->
      (state.writers x).place = .returned other := by
  unfold left
  split <;> split <;> simp only [signal_returned]

theorem left_place (state : WriteQueue W) (w : W) (status : Status)
    (members rest : List W) (x : W) :
    (state.left w status members rest x).place = (state.writers x).place ∨
      (state.left w status members rest x).place = .awake := by
  have marked := signal_place (Writer.mk (state.writers x).place (some status))
  unfold left
  dsimp only
  split
  · split
    · rcases signal_place (Writer.mk (state.writers x).place (some status)).signal with same | awake
      · rw [same]
        exact marked
      · exact Or.inr awake
    · exact signal_place _
  · split
    · exact marked
    · exact Or.inl rfl

theorem left_of_member (state : WriteQueue W) {w x : W} (status : Status)
    (isMember : x ∈ members) (other : x ≠ w) (notFirst : rest.head? ≠ some x) :
    state.left w status members rest x =
      (Writer.mk (state.writers x).place (some status)).signal := by
  unfold left
  rw [if_neg notFirst, if_pos ⟨isMember, other⟩]

theorem left_of_not_member (state : WriteQueue W) (w : W) (status : Status) (rest : List W)
    (notMember : x ∉ members) :
    state.left w status members rest x =
      if rest.head? = some x then (state.writers x).signal else state.writers x := by
  have unmarked : ¬ (x ∈ members ∧ x ≠ w) := fun both => notMember both.1
  unfold left
  rw [if_neg unmarked]

section Finished
variable {group : Option (BatchGroup W)} {status : Status} {members rest : List W}

theorem finished_writers (x : W) : (state.finished w group status members rest).writers x =
      if x = w then ⟨.returned status, (state.left w status members rest w).done⟩
      else state.left w status members rest x := by
  unfold finished giveBack setPlace
  by_cases isW : x = w
  · rw [isW, if_pos rfl]
    dsimp only
    rw [Function.update_self, signalHead_writers]
    rfl
  · rw [if_neg isW]
    dsimp only
    rw [Function.update_of_ne isW, signalHead_writers]
    rfl

variable (state w group status members rest) in
theorem finished_parts : (state.finished w group status members rest).queue = rest ∧
    (state.finished w group status members rest).groups = state.groups ++ [(members, status)] ∧
    (state.finished w group status members rest).tmpBatch = (state.settle group).tmpBatch ∧
    (state.finished w group status members rest).lastSequence = (state.settle group).lastSequence ∧
    (state.finished w group status members rest).log = state.log ∧
    (state.finished w group status members rest).mem = state.mem ∧
    (state.finished w group status members rest).returns = state.returns ++ [(w, status)] := by
  cases group <;> cases rest <;> exact ⟨rfl, rfl, rfl, rfl, rfl, rfl, rfl⟩

variable (inv : Inv requests arrived state)
  (place : (state.writers w).place = .finishing group status)
  (taken : Taken requests state w group members rest)
include inv taken

/-- The members other than the leader wake up done, the new head of the queue is awake,
and the others stay as they were. -/
theorem Inv.fits_left (other : x ≠ w) :
    Fits requests arrived (state.finished w group status members rest) x
      (state.left w status members rest x) := by
  rcases finished_parts state w group status members rest with ⟨queue, groups, _⟩
  have notHead := taken.not_head other
  by_cases isMember : x ∈ members
  · -- a member that waited: the leader has set its status and signalled it
    have queued : x ∈ state.queue := taken.split ▸ mem_append_left _ isMember
    have notFirst : rest.head? ≠ some x := fun isFirst =>
      (nodup_append.mp (inv.members_nodup taken.split)).2.2 x isMember x
        (mem_of_mem_head? isFirst) rfl
    have joined : InGroup (state.groups ++ [(members, status)]) x status :=
      ⟨_, mem_concat_self, isMember, rfl⟩
    rw [left_of_member state status isMember other notFirst]
    unfold Fits
    rw [groups]
    rcases (inv.fits x).other notHead with ⟨_, _, fresh⟩ | ⟨awake, _, _⟩ | ⟨asleep, _, _⟩ |
      ⟨_, inGroup, _⟩
    · refine absurd ?_ fresh
      rw [inv.order]
      exact mem_append_right _ queued
    · simp only [awake]
      exact Or.inr ⟨status, rfl, joined⟩
    · simp only [asleep]
      exact Or.inr ⟨status, rfl, joined⟩
    · exact absurd queued (inv.not_queued inGroup)
  · rw [left_of_not_member state w status rest isMember]
    have stays : x ∈ state.queue -> x ∈ rest := by
      rw [taken.split]
      exact fun queued => (mem_append.mp queued).resolve_left isMember
    rcases (inv.fits x).other notHead with ⟨idle, done, fresh⟩ | ⟨awake, done, waits⟩ |
      ⟨asleep, done, waits⟩ | ⟨other, ⟨old, isOld, inOld, same⟩, either⟩
    · unfold Fits
      simp only [Writer.signal, idle, ite_self]
      exact ⟨done, fresh⟩
    · unfold Fits
      simp only [Writer.signal, awake, ite_self]
      rw [queue]
      exact Or.inl ⟨done, stays waits⟩
    · have isRest := stays (mem_of_mem_tail waits)
      unfold Fits
      rw [queue]
      by_cases isFirst : rest.head? = some x
      · rw [if_pos isFirst]
        simp only [Writer.signal, asleep]
        exact Or.inl ⟨done, isRest⟩
      · rw [if_neg isFirst]
        simp only [asleep]
        refine ⟨done, ?_⟩
        cases rest with
        | nil => cases isRest
        | cons head tail =>
          exact (mem_cons.mp isRest).resolve_left fun same => isFirst (congrArg some same.symm)
    · have joined : InGroup (state.groups ++ [(members, status)]) x other :=
        ⟨old, mem_append_left _ isOld, inOld, same⟩
      unfold Fits
      rw [groups]
      rcases either with ⟨awake, done⟩ | returned
      · simp only [Writer.signal, awake, ite_self]
        exact Or.inr ⟨other, done, joined⟩
      · simp only [Writer.signal, returned, ite_self]
        exact joined

include place

omit [DecidableEq W] in
theorem Inv.tmp_settle : (state.settle group).tmpBatch = .empty := by
  cases group with
  | none => exact inv.tmp_empty taken.head (by rw [place]; rfl)
  | some group =>
    change (if group.inTmp = true then _ else state.tmpBatch) = _
    by_cases inTmp : group.inTmp = true
    · rw [if_pos inTmp]
    · rw [if_neg inTmp]
      rcases inv.tmp with empty | ⟨_, isFirst, _, isHeld, heldInTmp⟩
      · exact empty
      · rw [taken.head] at isFirst
        cases isFirst
        rw [place] at isHeld
        cases isHeld
        exact absurd heldInTmp inTmp

theorem Inv.finished : Inv requests arrived (state.finished w group status members rest) := by
  rcases finished_parts state w group status members rest with
    ⟨queue, groups, tmp, _, _, _, returns⟩
  have isMember : w ∈ members := mem_of_mem_head? taken.first
  have notReturned : ∀ other, (state.writers w).place ≠ .returned other := by
    rw [place]
    nofun
  have history := inv.returns_snoc notReturned _ returns (by rw [finished_writers, if_pos rfl])
    (fun x other isOther => by rw [finished_writers, if_neg isOther, left_returned])
  refine ⟨?_, inv.nodup, fun x => ?_, Or.inl (tmp.trans (inv.tmp_settle place taken)), ?_,
    history.1, history.2⟩
  · rw [queue, groups, flatMap_append, flatMap_singleton, append_assoc, <- taken.split]
    exact inv.order
  · rw [finished_writers]
    by_cases isW : x = w
    · rw [if_pos isW, isW]
      change InGroup _ w status
      rw [groups]
      exact ⟨_, mem_concat_self, isMember, rfl⟩
    · rw [if_neg isW]
      exact inv.fits_left taken isW
  · rw [groups]
    intro other isGroup leader isLeader x isX
    rcases mem_concat.mp isGroup with old | rfl
    · exact inv.sync other old leader isLeader x isX
    · rw [taken.first] at isLeader
      cases isLeader
      exact taken.sync x isX

end Finished

theorem finish_cases (inv : Inv requests arrived state) (ended : state.finish w = .ok next) :
    ∃ group status members rest, (state.writers w).place = .finishing group status ∧
      Taken requests state w group members rest ∧
      next = state.finished w group status members rest := by
  have unfolded := ended
  unfold finish at unfolded
  cases place : (state.writers w).place with
  | finishing group status =>
    rcases inv.taken place with ⟨members, rest, taken⟩
    rw [finish_eq inv place taken] at ended
    exact ⟨group, status, members, rest, rfl, taken, (Except.ok.inj ended).symm⟩
  | _ =>
    rw [place] at unfolded
    cases unfolded

theorem Inv.step {mod : Nat} {action : WriteAction W} (inv : Inv requests arrived state)
    (stepped : state.step requests mod action = .ok next) :
    Inv requests (arrived ++ arrivals [action]) next := by
  cases action with
  | call w => exact inv.call stepped
  | test w => exact (append_nil arrived).symm ▸ inv.test stepped
  | wake w => exact (append_nil arrived).symm ▸ inv.wake stepped
  | makeRoom w status => exact (append_nil arrived).symm ▸ inv.makeRoom stepped
  | append w status => exact (append_nil arrived).symm ▸ inv.append stepped
  | insert w => exact (append_nil arrived).symm ▸ inv.insert stepped
  | finish w =>
    rcases finish_cases inv stepped with ⟨_, _, _, _, place, taken, rfl⟩
    exact (append_nil arrived).symm ▸ inv.finished place taken

theorem inv_run {mod lastSequence : Nat} {actions : List (WriteAction W)}
    (ran : run requests mod lastSequence actions = .ok state) :
    Inv requests (arrivals actions) state := by
  have kept : Inv requests (arrivals ([] ++ actions)) state :=
    foldlM_invariant (fun seen state => Inv requests (arrivals seen) state)
      (fun seen action _ _ inv stepped => by
        rw [arrivals, filterMap_append]
        exact inv.step stepped)
      (inv_new lastSequence) ran
  exact kept

end WriteQueue

end
end Db
end Doux
