import Doux.Foundation.Cursor
import Doux.Db.Format

namespace Doux
namespace Db

open Foundation List

/-!
# The database iterator

`DBIter` turns an iterator over internal keys into one over user keys.  It shows,
for each user key, the newest version at or below its sequence number, unless that
version is a deletion.

Moving forward, the internal iterator stands at the version that is shown.  Moving
in reverse it stands before all versions of the shown key that the snapshot can see,
and key and value are saved copies.  The internal iterator is given by what it
yields: the sorted list of all entries, and a position in the list or none.  The
read sampling in `ParseKey` changes nothing that the iterator shows and is left out.
-/

inductive Direction where
  | forward
  | reverse
deriving DecidableEq

structure DBIter where
  iter : Option Nat
  savedKey : UserKey
  savedValue : Bytes
  direction : Direction
  valid : Bool

/-- What `FindPrevUserEntry` has saved so far. -/
structure SavedEntry where
  type : ValueType
  key : UserKey
  value : Bytes

/-- `ParseKey(&ikey) && ikey.sequence <= sequence_`. -/
def visibleKey (sequence : Nat) (entry : Entry) : Option ParsedInternalKey :=
  entry.key.parse.filter (fun ikey => ikey.sequence ≤ sequence)

section
variable [LinearOrder UserKey]

/-- The loop of `FindNextUserEntry` over the entries from the current one on, which
is at position `index`. -/
def findNextLoop (sequence : Nat) : List Entry -> Nat -> Bool -> UserKey -> Option Nat
  | [], _, _, _ => none
  | entry :: rest, index, skipping, skip =>
    match visibleKey sequence entry with
    | none => findNextLoop sequence rest (index + 1) skipping skip
    | some ikey =>
      match ikey.type with
      | .deletion => findNextLoop sequence rest (index + 1) true ikey.userKey
      | .value =>
        if skipping = true ∧ ikey.userKey ≤ skip then
          findNextLoop sequence rest (index + 1) skipping skip
        else some index

/-- The loop of `FindPrevUserEntry` over the entries from the current one backwards,
with the position at which it leaves the internal iterator. -/
def findPrevLoop (sequence : Nat) : List Entry -> SavedEntry -> Option Nat × SavedEntry
  | [], saved => (none, saved)
  | entry :: before, saved =>
    match visibleKey sequence entry with
    | none => findPrevLoop sequence before saved
    | some ikey =>
      if saved.type ≠ .deletion ∧ ikey.userKey < saved.key then (some before.length, saved)
      else
        match ikey.type with
        | .deletion => findPrevLoop sequence before ⟨.deletion, ⟨[]⟩, []⟩
        | .value => findPrevLoop sequence before ⟨.value, entry.key.userKey, entry.value⟩

/-- The loop of `Prev` that leaves the versions of the current key. -/
def scanBack (savedKey : UserKey) : List Entry -> Option Nat
  | [] => none
  | entry :: before =>
    if entry.key.userKey < savedKey then some before.length else scanBack savedKey before

namespace DBIter

def new : DBIter := ⟨none, ⟨[]⟩, [], .forward, false⟩

variable (entries : List Entry) (sequence : Nat)

def findNextUserEntry (iterator : DBIter) (skipping : Bool) : Except String DBIter :=
  match iterator.iter with
  | none => .error "iter_->Valid()"
  | some index => do
    assertThat (iterator.direction = .forward) "direction_ == kForward"
    let found := findNextLoop sequence (entries.drop index) index skipping iterator.savedKey
    return { iterator with iter := found, savedKey := ⟨[]⟩, valid := found.isSome }

def findPrevUserEntry (iterator : DBIter) : Except String DBIter := do
  assertThat (iterator.direction = .reverse) "direction_ == kReverse"
  let before := (entries.take (iterator.iter.elim 0 (fun index => index + 1))).reverse
  let found := findPrevLoop sequence before ⟨.deletion, iterator.savedKey, iterator.savedValue⟩
  if found.2.type = .deletion then
    return ⟨found.1, ⟨[]⟩, [], .forward, false⟩
  else
    return ⟨found.1, found.2.key, found.2.value, .reverse, true⟩

def seekToFirst (iterator : DBIter) : Except String DBIter :=
  match entries with
  | [] => .ok
    { iterator with iter := none, savedValue := [], direction := .forward, valid := false }
  | _ :: _ =>
    findNextUserEntry entries sequence
      { iterator with iter := some 0, savedValue := [], direction := .forward } false

def seekToLast (iterator : DBIter) : Except String DBIter :=
  findPrevUserEntry entries sequence { iterator with
      iter := if entries = [] then none else some (entries.length - 1)
      savedValue := []
      direction := .reverse }

/-- `Seek` for the internal key that is built in `saved_key_`. -/
def seekInternal (iterator : DBIter) (sought : InternalKey) : Except String DBIter :=
  match entries.findIdx? (fun entry => sought ≤ entry.key) with
  | none => .ok ⟨none, ⟨sought.encode⟩, [], .forward, false⟩
  | some index => findNextUserEntry entries sequence ⟨some index, ⟨sought.encode⟩, [], .forward,
      iterator.valid⟩ false

def seek (iterator : DBIter) (target : UserKey) : Except String DBIter := do
  let tag <- packSequenceAndType sequence .value
  iterator.seekInternal entries sequence ⟨target, tag⟩

/-- Where a reverse iterator starts to move forward. -/
def turnForward (iterator : DBIter) : Option Nat :=
  let index := iterator.iter.elim 0 (fun index => index + 1)
  if index < entries.length then some index else none

/-- `Next` of a reverse iterator: `saved_key_` already holds the key to skip. -/
def nextFromReverse (iterator : DBIter) : Except String DBIter :=
  match turnForward entries iterator with
  | none => .ok { iterator with
      iter := none, savedKey := ⟨[]⟩, direction := .forward, valid := false }
  | some index => findNextUserEntry entries sequence
      { iterator with iter := some index, direction := .forward } true

def nextFromForward (iterator : DBIter) : Except String DBIter :=
  match iterator.iter.bind (fun index => entries[index]?) with
  | none => .error "Valid()"
  | some entry =>
    findNextUserEntry entries sequence { iterator with savedKey := entry.key.userKey } true

def next (iterator : DBIter) : Except String DBIter := do
  assertThat (iterator.valid = true) "valid_"
  match iterator.direction with
  | .reverse => iterator.nextFromReverse entries sequence
  | .forward => iterator.nextFromForward entries sequence

/-- `Prev` of a forward iterator: scan backwards until the key changes. -/
def prevFromForward (iterator : DBIter) : Except String DBIter :=
  match iterator.iter.bind (fun index => entries[index]?.map (fun entry => (index, entry))) with
  | none => .error "iter_->Valid()"
  | some (index, entry) =>
    match scanBack entry.key.userKey (entries.take index).reverse with
    | none => .ok ⟨none, ⟨[]⟩, [], .forward, false⟩
    | some before =>
      findPrevUserEntry entries sequence { iterator with
          iter := some before, savedKey := entry.key.userKey, direction := .reverse }

def prev (iterator : DBIter) : Except String DBIter := do
  assertThat (iterator.valid = true) "valid_"
  match iterator.direction with
  | .reverse => iterator.findPrevUserEntry entries sequence
  | .forward => iterator.prevFromForward entries sequence

/-- `key()` and the stored value, when `Valid()`. -/
def current (iterator : DBIter) : Option (UserKey × Bytes) :=
  if iterator.valid = true then
    match iterator.direction with
    | .forward => (iterator.iter.bind (fun index => entries[index]?)).map
        (fun entry => (entry.key.userKey, entry.value))
    | .reverse => some (iterator.savedKey, iterator.savedValue)
  else none

def call (iterator : DBIter) : CursorCall UserKey -> Except String DBIter
  | .seekToFirst => iterator.seekToFirst entries sequence
  | .seekToLast => iterator.seekToLast entries sequence
  | .seek target => iterator.seek entries sequence target
  | .next => iterator.next entries sequence
  | .prev => iterator.prev entries sequence

def run (calls : List (CursorCall UserKey)) : Except String DBIter :=
  calls.foldlM (call entries sequence) new

end DBIter

/-- The entry is the newest version of its user key that the sequence number sees. -/
def Newest (entries : List Entry) (sequence : Nat) (entry : Entry) : Prop :=
  entry.key.sequence ≤ sequence ∧
    ∀ other ∈ entries, other.key.userKey = entry.key.userKey -> other.key.sequence ≤ sequence ->
      other.key.tag.toNat ≤ entry.key.tag.toNat

/-- The entry is a value and the newest version of its user key. -/
def Shown (entries : List Entry) (sequence : Nat) (entry : Entry) : Prop :=
  Newest entries sequence entry ∧ entry.key.type = some .value

instance (entries : List Entry) (sequence : Nat) (entry : Entry) :
    Decidable (Shown entries sequence entry) := by
  unfold Shown Newest
  infer_instance

/-- The map that gives each user key the value of its newest version, where that is
not a deletion. -/
def visibleMap (entries : List Entry) (sequence : Nat) : List (UserKey × Bytes) :=
  (entries.filter (fun entry => Shown entries sequence entry)).map
    (fun entry => (entry.key.userKey, entry.value))

/-- Entries with distinct and well-formed internal keys in their order, and a
sequence number that a tag can hold. -/
structure InternalEntries where
  entries : List Entry
  ordered : entries.Pairwise (fun a b => a.key < b.key)
  wellFormed : ∀ entry ∈ entries, entry.key.type ≠ none
  sequence : Nat
  bounded : sequence ≤ kMaxSequenceNumber

namespace InternalEntries

variable (source : InternalEntries)

/-- The sequence number sees the entry. -/
def Sees (entry : Entry) : Prop := entry.key.sequence ≤ source.sequence

def Shows (entry : Entry) : Prop := Shown source.entries source.sequence entry

instance (entry : Entry) : Decidable (source.Shows entry) :=
  inferInstanceAs (Decidable (Shown source.entries source.sequence entry))

/-- What the iterator shows, in the order of the keys. -/
abbrev visible : List (UserKey × Bytes) := visibleMap source.entries source.sequence

variable {source}

variable {entry : Entry}

/-- Reading a visible entry gives its parts, and other entries give nothing. -/
theorem visibleKey_cases (member : entry ∈ source.entries) :
    (¬ source.Sees entry ∧ visibleKey source.sequence entry = none) ∨
    (source.Sees entry ∧ ∃ type, entry.key.type = some type ∧
      visibleKey source.sequence entry = some ⟨entry.key.userKey, entry.key.sequence, type⟩) := by
  cases known : entry.key.type with
  | none => exact absurd known (source.wellFormed entry member)
  | some type =>
    by_cases seen : source.Sees entry
    · refine Or.inr ⟨seen, type, rfl, ?_⟩
      simp [visibleKey, InternalKey.parse, known, show _ ≤ _ from seen]
    · refine Or.inl ⟨seen, ?_⟩
      simp [visibleKey, InternalKey.parse, known, Option.filter, show ¬ _ ≤ _ from seen]

section Split
variable {before after : List Entry} (split : source.entries = before ++ after)
include split

theorem mem_before (member : entry ∈ before) : entry ∈ source.entries :=
  split ▸ mem_append_left _ member

theorem mem_after (member : entry ∈ after) : entry ∈ source.entries :=
  split ▸ mem_append_right _ member

variable {first second : Entry} (earlier : first ∈ before) (later : second ∈ after)
include earlier later

theorem key_lt : first.key < second.key :=
  (pairwise_append.mp (split ▸ source.ordered)).2.2 first earlier second later

theorem userKey_le : first.key.userKey ≤ second.key.userKey :=
  InternalKey.userKey_le_of_le (le_of_lt (key_lt split earlier later))

theorem not_shows_of_earlier (seen : source.Sees first)
    (same : first.key.userKey = second.key.userKey) : ¬ source.Shows second := by
  intro shown
  have newer := (InternalKey.lt_iff_of_userKey_eq same).mp (key_lt split earlier later)
  have older := shown.1.2 first (mem_before split earlier) same seen
  omega

end Split

variable {before after : List Entry} {skipping : Bool}

theorem userKey_le_of_mem (split : source.entries = before ++ entry :: after) {other : Entry}
    (member : other ∈ entry :: after) : entry.key.userKey ≤ other.key.userKey := by
  rcases mem_cons.mp member with rfl | later
  · exact le_refl _
  · exact userKey_le (split.trans (append_cons _ _ _)) mem_concat_self later

/-- An entry is the newest visible version of its user key when no visible version
comes before it. -/
theorem newest_of_first (split : source.entries = before ++ entry :: after)
    (seen : source.Sees entry)
    (first : ∀ other ∈ before, source.Sees other -> other.key.userKey ≠ entry.key.userKey) :
    Newest source.entries source.sequence entry := by
  refine ⟨seen, fun other member same visible => ?_⟩
  rw [split] at member
  rcases mem_append.mp member with earlier | later
  · exact absurd same (first other earlier visible)
  · rcases mem_cons.mp later with rfl | later
    · exact le_refl _
    · have less := key_lt (split.trans (append_cons _ _ _)) mem_concat_self later
      exact le_of_lt ((InternalKey.lt_iff_of_userKey_eq same.symm).mp less)

/-- The loop has left the entries `before`, and skips the keys up to `skip` when
`skipping`.  A visible version that is still to come is hidden by an earlier one only
if its key is skipped, and the loop never falls behind `skip`. -/
structure Skips (source : InternalEntries) (before after : List Entry) (skipping : Bool)
    (skip : UserKey) : Prop where
  split : source.entries = before ++ after
  hidden : ∀ entry ∈ after, ∀ other ∈ before, source.Sees other ->
    other.key.userKey = entry.key.userKey -> skipping = true ∧ entry.key.userKey ≤ skip
  ahead : ∀ entry ∈ after, source.Sees entry -> skipping = true -> skip ≤ entry.key.userKey

/-- An entry at which the loop may stop. -/
def Stops (source : InternalEntries) (skipping : Bool) (skip : UserKey) (entry : Entry) : Prop :=
  source.Shows entry ∧ (skipping = true -> skip < entry.key.userKey)

instance (skipping : Bool) (skip : UserKey) (entry : Entry) :
    Decidable (Stops source skipping skip entry) := by
  unfold Stops
  infer_instance

namespace Skips

variable {skip : UserKey} (skips : Skips source before (entry :: after) skipping skip)
include skips

theorem pass (covered : source.Sees entry -> skipping = true ∧ entry.key.userKey ≤ skip) :
    Skips source (before ++ [entry]) after skipping skip where
  split := skips.split.trans (append_cons _ _ _)
  hidden := by
    intro later isLater other isOther seen same
    rcases mem_concat.mp isOther with earlier | rfl
    · exact skips.hidden later (mem_cons_of_mem _ isLater) other earlier seen same
    · rw [<- same]
      exact covered seen
  ahead := fun later isLater => skips.ahead later (mem_cons_of_mem _ isLater)

theorem delete : Skips source (before ++ [entry]) after true entry.key.userKey := by
  refine ⟨skips.split.trans (append_cons _ _ _), fun later isLater other isOther _ same =>
    ⟨rfl, ?_⟩, fun later isLater _ _ => userKey_le_of_mem skips.split (mem_cons_of_mem _ isLater)⟩
  rw [<- same]
  rcases mem_concat.mp isOther with earlier | rfl
  · exact userKey_le skips.split earlier mem_cons_self
  · exact le_rfl

/-- After a visible deletion the entries at which the loop may stop are the same. -/
theorem stops_delete (seen : source.Sees entry) {later : Entry} (isLater : later ∈ after) :
    Stops source true entry.key.userKey later <-> Stops source skipping skip later := by
  have split := skips.delete.split
  constructor
  · rintro ⟨shown, above⟩
    exact ⟨shown, fun skipped =>
      lt_of_le_of_lt (skips.ahead entry mem_cons_self seen skipped) (above rfl)⟩
  · rintro ⟨shown, _⟩
    refine ⟨shown, fun _ => lt_of_le_of_ne (userKey_le split mem_concat_self isLater)
      fun same => ?_⟩
    exact not_shows_of_earlier split mem_concat_self isLater seen same shown

end Skips

theorem findNextLoop_eq {skip : UserKey} (skips : Skips source before after skipping skip) :
    findNextLoop source.sequence after before.length skipping skip =
      (after.findIdx? (fun entry => Stops source skipping skip entry)).map
        (fun offset => before.length + offset) := by
  induction after generalizing before skipping skip with
  | nil => rfl
  | cons entry after ih =>
    have shift (found : Option Nat) :
        found.map (fun offset => (before ++ [entry]).length + offset) =
          (found.map (fun offset => offset + 1)).map (fun offset => before.length + offset) := by
      rw [Option.map_map]
      refine congrArg (fun shifted => found.map shifted) (funext fun offset => ?_)
      simp only [length_append, length_singleton, Function.comp_apply]
      omega
    have moved : (before ++ [entry]).length = before.length + 1 := length_append
    have member := mem_after skips.split (mem_cons_self (a := entry) (l := after))
    rw [findIdx?_cons, findNextLoop]
    rcases visibleKey_cases member with ⟨unseen, read⟩ | ⟨seen, type, known, read⟩
    · -- too new: neither shown nor able to hide another version
      have passes : ¬ Stops source skipping skip entry := fun stops => unseen stops.1.1.1
      rw [read, decide_eq_false passes, <- moved]
      exact (ih (skips.pass (fun seen => absurd seen unseen))).trans (shift _)
    · rw [read]
      cases type with
      | deletion =>
        have passes : ¬ Stops source skipping skip entry := by
          intro stops
          have isValue := stops.1.2
          rw [known] at isValue
          cases isValue
        have same : after.findIdx? (fun later => Stops source true entry.key.userKey later) =
            after.findIdx? (fun later => Stops source skipping skip later) :=
          findIdx?_congr fun later isLater =>
            decide_eq_decide.mpr (skips.stops_delete seen isLater)
        rw [decide_eq_false passes, <- moved, <- same]
        exact (ih skips.delete).trans (shift _)
      | value =>
        by_cases hidden : skipping = true ∧ entry.key.userKey ≤ skip
        · have passes : ¬ Stops source skipping skip entry := fun stops =>
            absurd (stops.2 hidden.1) (not_lt_of_ge hidden.2)
          dsimp only
          rw [if_pos hidden, decide_eq_false passes, <- moved]
          exact (ih (skips.pass (fun _ => hidden))).trans (shift _)
        · have stops : Stops source skipping skip entry := by
            refine ⟨⟨newest_of_first skips.split seen ?_, known⟩, fun skipped => ?_⟩
            · intro other earlier visible same
              exact hidden (skips.hidden entry mem_cons_self other earlier visible same)
            · exact lt_of_not_ge fun below => hidden ⟨skipped, below⟩
          dsimp only
          rw [if_neg hidden, decide_eq_true stops]
          rfl

/-! ## Moving in reverse -/

/-- How many entries there are up to the internal iterator. -/
abbrev reached (iter : Option Nat) : Nat := iter.elim 0 (fun index => index + 1)

/-- The first `count` entries are the visible ones with keys below `key`, and
perhaps others that the sequence number does not see. -/
structure Below (source : InternalEntries) (count : Nat) (key : UserKey) : Prop where
  less : ∀ entry ∈ source.entries.take count, entry.key.userKey < key
  rest : ∀ entry ∈ source.entries.drop count, source.Sees entry -> key ≤ entry.key.userKey

/-- The loop has read the entries `after` backwards, and saved the first visible one
of them unless that is a deletion.  No other entry of `after` that lies `within` the
range of the search is shown. -/
structure Saves (source : InternalEntries) (within : Entry -> Prop) (before after : List Entry)
    (saved : SavedEntry) : Prop where
  split : source.entries = before ++ after
  only : ∀ entry ∈ after, source.Shows entry -> within entry -> saved.type = .value
  candidate : saved.type = .value -> ∃ passed entry rest, after = passed ++ entry :: rest ∧
    saved = ⟨.value, entry.key.userKey, entry.value⟩ ∧ within entry ∧
    source.Sees entry ∧ entry.key.type = some .value ∧
    (∀ other ∈ passed, ¬ source.Sees other) ∧
    ∀ other ∈ rest, source.Shows other -> ¬ within other

/-- What the loop finds: nothing within the range is shown, or the last such entry
is saved and the internal iterator stands below its key. -/
def Finds (source : InternalEntries) (within : Entry -> Prop) (found : Option Nat × SavedEntry) :
    Prop :=
  (found.2.type = .deletion ∧ ∀ entry ∈ source.entries, source.Shows entry -> ¬ within entry) ∨
  (∃ earlier entry later, source.entries = earlier ++ entry :: later ∧
    found.2 = ⟨.value, entry.key.userKey, entry.value⟩ ∧ source.Shows entry ∧ within entry ∧
    (∀ other ∈ later, source.Shows other -> ¬ within other) ∧
    Below source (found.1.elim 0 (fun index => index + 1)) entry.key.userKey)

namespace Saves

variable {within : Entry -> Prop} {saved : SavedEntry}

section
variable (saves : Saves source within (before ++ [entry]) after saved)
include saves

theorem split_cons : source.entries = before ++ entry :: after :=
  saves.split.trans (append_cons _ _ _).symm

/-- The loop passes an entry that the sequence number does not see. -/
theorem pass (unseen : ¬ source.Sees entry) :
    Saves source within before (entry :: after) saved where
  split := saves.split_cons
  only := forall_mem_cons.mpr ⟨fun shown _ => absurd shown.1.1 unseen, saves.only⟩
  candidate := by
    intro isValue
    rcases saves.candidate isValue with ⟨passed, found, rest, equal, parts, inside, seen, value,
      skipped, none⟩
    exact ⟨entry :: passed, found, rest, by rw [equal]; rfl, parts, inside, seen, value,
      forall_mem_cons.mpr ⟨unseen, skipped⟩, none⟩

/-- A visible entry whose key is not below the saved one hides every later entry
within the range. -/
theorem hides (seen : source.Sees entry)
    (stays : saved.type = .value -> ¬ entry.key.userKey < saved.key) :
    ∀ other ∈ after, source.Shows other -> ¬ within other := by
  intro other isOther shown inside
  have isValue := saves.only other isOther shown inside
  rcases saves.candidate isValue with ⟨_, _, _, equal, parts, _, _, _, skipped, none⟩
  rw [equal] at isOther
  rcases mem_append.mp isOther with isPassed | isLater
  · exact skipped other isPassed shown.1.1
  · rcases mem_cons.mp isLater with rfl | isRest
    · have notLess := stays isValue
      rw [parts] at notLess
      have isAfter : other ∈ after := equal ▸ isOther
      have same := eq_of_le_of_not_lt (userKey_le saves.split mem_concat_self isAfter) notLess
      exact not_shows_of_earlier saves.split mem_concat_self isAfter seen same shown
    · exact none other isRest shown inside

theorem replace (seen : source.Sees entry) (inside : within entry)
    (stays : saved.type = .value -> ¬ entry.key.userKey < saved.key)
    (isValue : entry.key.type = some .value) :
    Saves source within before (entry :: after) ⟨.value, entry.key.userKey, entry.value⟩ where
  split := saves.split_cons
  only := fun _ _ _ _ => rfl
  candidate := fun _ => ⟨[], entry, after, rfl, rfl, inside, seen, isValue, nofun,
    saves.hides seen stays⟩

theorem delete (seen : source.Sees entry)
    (stays : saved.type = .value -> ¬ entry.key.userKey < saved.key)
    (isDeletion : entry.key.type = some .deletion) (cleared : SavedEntry)
    (none : cleared.type = .deletion) : Saves source within before (entry :: after) cleared where
  split := saves.split_cons
  only := by
    refine forall_mem_cons.mpr ⟨fun shown _ => ?_, fun other isLater shown inside => ?_⟩
    · exact nomatch isDeletion.symm.trans shown.2
    · exact absurd inside (saves.hides seen stays other isLater shown)
  candidate := by
    intro isValue
    rw [none] at isValue
    cases isValue

end

/-- The saved entry is shown once all visible entries before it have smaller keys. -/
theorem finds (saves : Saves source within before after saved) (isValue : saved.type = .value)
    (less : ∀ other ∈ before, other.key.userKey < saved.key) {index : Option Nat}
    (count : index.elim 0 (fun index => index + 1) = before.length) :
    Finds source within (index, saved) := by
  rcases saves.candidate isValue with ⟨passed, entry, rest, equal, parts, inside, seen, value,
    skipped, none⟩
  have regrouped : source.entries = (before ++ passed) ++ entry :: rest := by
    rw [saves.split, equal, append_assoc]
  have smaller : ∀ other ∈ before, other.key.userKey < entry.key.userKey := by
    rw [parts] at less
    exact less
  have newest := newest_of_first regrouped seen (forall_mem_append.mpr
    ⟨fun other isBefore _ => ne_of_lt (smaller other isBefore),
      fun other isPassed visible => absurd visible (skipped other isPassed)⟩)
  refine Or.inr ⟨before ++ passed, entry, rest, regrouped, parts, ⟨newest, value⟩, inside, none,
    ?_, ?_⟩
  · rw [count, saves.split, take_left]
    exact smaller
  · rw [count, saves.split, drop_left, equal]
    exact forall_mem_append.mpr
      ⟨fun other isPassed visible => absurd visible (skipped other isPassed),
        fun other isLater _ => userKey_le_of_mem regrouped isLater⟩

end Saves

theorem findPrevLoop_finds {within : Entry -> Prop} {saved : SavedEntry}
    (inside : ∀ entry ∈ before, within entry)
    (saves : Saves source within before.reverse after saved) :
    Finds source within (findPrevLoop source.sequence before saved) := by
  induction before generalizing after saved with
  | nil =>
    cases isType : saved.type with
    | deletion =>
      refine Or.inl ⟨isType, fun entry member shown within => ?_⟩
      have isAfter : entry ∈ after := by simpa [saves.split] using member
      have isValue := saves.only entry isAfter shown within
      rw [isType] at isValue
      cases isValue
    | value => exact saves.finds isType nofun rfl
  | cons entry before ih =>
    rw [reverse_cons] at saves
    have later := fun other isOther => inside other (mem_cons_of_mem entry isOther)
    rw [findPrevLoop]
    rcases visibleKey_cases (mem_before saves.split mem_concat_self) with
      ⟨unseen, read⟩ | ⟨seen, type, known, read⟩
    · rw [read]
      exact ih later (saves.pass unseen)
    · rw [read]
      by_cases leaves : saved.type ≠ .deletion ∧ entry.key.userKey < saved.key
      · -- the saved key is complete: this entry belongs to an earlier key
        have isValue : saved.type = .value := by
          cases isType : saved.type with
          | deletion => exact absurd isType leaves.1
          | value => rfl
        dsimp only
        rw [if_pos leaves]
        refine saves.finds isValue (forall_mem_concat.mpr ⟨fun other earlier => ?_, leaves.2⟩)
          (by simp)
        exact lt_of_le_of_lt (userKey_le saves.split_cons earlier mem_cons_self) leaves.2
      · have stays : saved.type = .value -> ¬ entry.key.userKey < saved.key :=
          fun isValue less => leaves ⟨by rw [isValue]; nofun, less⟩
        dsimp only
        rw [if_neg leaves]
        cases type with
        | deletion => exact ih later (saves.delete seen stays known _ rfl)
        | value =>
          exact ih later (saves.replace seen (inside entry mem_cons_self) stays known)

/-- `Prev` first leaves all versions of the current key. -/
theorem scanBack_below (key : UserKey) (before : List Entry)
    (split : source.entries = before.reverse ++ after)
    (above : ∀ entry ∈ after, key ≤ entry.key.userKey) :
    (scanBack key before = none ∧ ∀ entry ∈ source.entries, key ≤ entry.key.userKey) ∨
    (∃ index, scanBack key before = some index ∧ Below source (index + 1) key) := by
  induction before generalizing after with
  | nil => exact Or.inl ⟨rfl, fun entry member => above entry (by simpa [split] using member)⟩
  | cons entry before ih =>
    rw [reverse_cons] at split
    rw [scanBack]
    by_cases less : entry.key.userKey < key
    · have count : before.length + 1 = (before.reverse ++ [entry]).length := by simp
      have grouped := split.trans (append_cons _ _ _).symm
      rw [if_pos less]
      refine Or.inr ⟨before.length, rfl, ?_, ?_⟩
      · rw [count, split, take_left]
        refine forall_mem_concat.mpr ⟨fun other earlier => ?_, less⟩
        exact lt_of_le_of_lt (userKey_le grouped earlier mem_cons_self) less
      · rw [count, split, drop_left]
        exact fun other isOther _ => above other isOther
    · rw [if_neg less]
      exact ih (split.trans (append_cons _ _ _).symm)
        (forall_mem_cons.mpr ⟨le_of_not_gt less, above⟩)

def item (entry : Entry) : UserKey × Bytes := (entry.key.userKey, entry.value)

/-- How the iterator stands for a cursor at an item, or at none. -/
def Represents (source : InternalEntries) (iterator : DBIter) : Option (UserKey × Bytes) -> Prop
  | none => iterator.valid = false
  | some shown =>
    iterator.valid = true ∧
      match iterator.direction with
      | .forward => ∃ before entry after, source.entries = before ++ entry :: after ∧
          iterator.iter = some before.length ∧ source.Shows entry ∧ shown = item entry
      | .reverse => shown = (iterator.savedKey, iterator.savedValue) ∧
          Below source (iterator.iter.elim 0 (fun index => index + 1)) shown.1

/-- The call returns an iterator that stands for the cursor. -/
def Leads (source : InternalEntries) (called : Except String DBIter)
    (shown : Option (UserKey × Bytes)) : Prop :=
  ∃ next, called = .ok next ∧ Represents source next shown

variable {iterator : DBIter}

theorem Represents.current {shown : Option (UserKey × Bytes)}
    (represents : Represents source iterator shown) : iterator.current source.entries = shown := by
  cases shown with
  | none =>
    have invalid : iterator.valid = false := represents
    rw [DBIter.current, invalid]
    rfl
  | some shown =>
    rcases represents with ⟨valid, stands⟩
    rw [DBIter.current, if_pos valid]
    split at stands
    · rcases stands with ⟨_, _, _, split, position, _, rfl⟩
      rw [position, split]
      simp [item]
    · exact congrArg some stands.1.symm

theorem not_both {p : UserKey -> Bool} (none : source.Shows entry -> ¬ p entry.key.userKey = true) :
    ¬ decide (source.Shows entry ∧ p entry.key.userKey = true) = true :=
  fun both => none (of_decide_eq_true both).1 (of_decide_eq_true both).2

section Map
variable (source) (p : UserKey -> Bool)

theorem find?_visibleMap : source.visible.find? (fun shown => p shown.1) =
      (source.entries.find? (fun entry => source.Shows entry ∧ p entry.key.userKey)).map item := by
  rw [visible, visibleMap, find?_map, find?_filter]
  refine congrArg (Option.map item) (congrArg (source.entries.find? ·) (funext fun entry => ?_))
  exact decide_eq_decide.mpr (and_congr_left' decide_eq_true_iff)

theorem getLast?_visibleMap : (source.visible.filter (fun shown => p shown.1)).getLast? =
      (source.entries.filter
        (fun entry => source.Shows entry ∧ p entry.key.userKey)).getLast?.map item := by
  rw [visible, visibleMap, filter_map, getLast?_map, filter_filter]
  refine congrArg (fun kept => Option.map item kept.getLast?)
    (congrArg (source.entries.filter ·) (funext fun entry => Bool.eq_iff_iff.mpr ?_))
  simp only [Bool.and_eq_true, decide_eq_true_eq]
  exact and_comm

end Map

theorem findNextUserEntry_represents
    (position : iterator.iter = some before.length) (direction : iterator.direction = .forward)
    (skips : Skips source before after skipping iterator.savedKey) :
    Leads source (iterator.findNextUserEntry source.entries source.sequence skipping)
      ((after.find? (fun entry => Stops source skipping iterator.savedKey entry)).map item) := by
  have dropped : source.entries.drop before.length = after := by
    rw [skips.split, drop_left]
  refine ⟨_, by
    rw [DBIter.findNextUserEntry, position]
    dsimp only
    rw [assertThat_of direction, dropped, findNextLoop_eq skips]
    rfl, ?_⟩
  cases found : after.find? (fun entry => Stops source skipping iterator.savedKey entry) with
  | none =>
    have absent : after.findIdx? (fun entry => Stops source skipping iterator.savedKey entry) =
        none := findIdx?_eq_none_iff.mpr fun entry member =>
      Bool.eq_false_iff.mpr (find?_eq_none.mp found entry member)
    rw [absent]
    rfl
  | some entry =>
    rcases find?_eq_some_iff_append.mp found with ⟨stops, passed, rest, equal, passes⟩
    have absent : passed.findIdx? (fun entry => Stops source skipping iterator.savedKey entry) =
        none := findIdx?_eq_none_iff.mpr fun other member => by
      simpa using passes other member
    rw [equal, findIdx?_append, absent, findIdx?_cons, stops]
    refine ⟨rfl, ?_⟩
    rw [direction]
    refine ⟨before ++ passed, entry, rest, ?_, ?_, (of_decide_eq_true stops).1, rfl⟩
    · rw [skips.split, equal, append_assoc]
    · simp

theorem findPrevUserEntry_represents (p : UserKey -> Bool)
    (direction : iterator.direction = .reverse)
    (inside : ∀ entry ∈ source.entries.take (reached iterator.iter), p entry.key.userKey = true)
    (outside : ∀ entry ∈ source.entries.drop (reached iterator.iter),
      source.Sees entry -> ¬ p entry.key.userKey = true) :
    Leads source (iterator.findPrevUserEntry source.entries source.sequence) ((source.entries.filter
          (fun entry => source.Shows entry ∧ p entry.key.userKey)).getLast?.map item) := by
  have saves : Saves source (fun entry => p entry.key.userKey = true)
      (source.entries.take (reached iterator.iter)).reverse.reverse
      (source.entries.drop (reached iterator.iter))
      ⟨.deletion, iterator.savedKey, iterator.savedValue⟩ := by
    refine ⟨by rw [reverse_reverse, take_append_drop], ?_, nofun⟩
    exact fun entry member shown within => absurd within (outside entry member shown.1.1)
  have finds := findPrevLoop_finds (fun entry member => inside entry (mem_reverse.mp member)) saves
  have unfolded : iterator.findPrevUserEntry source.entries source.sequence =
      let found := findPrevLoop source.sequence
        (source.entries.take (reached iterator.iter)).reverse
        ⟨.deletion, iterator.savedKey, iterator.savedValue⟩
      if found.2.type = .deletion then .ok ⟨found.1, ⟨[]⟩, [], .forward, false⟩
      else .ok ⟨found.1, found.2.key, found.2.value, .reverse, true⟩ := by
    rw [DBIter.findPrevUserEntry, assertThat_of direction]
    rfl
  rw [unfolded]
  rcases finds with ⟨deletion, none⟩ | ⟨_, entry, _, split, saved, shown, within, last, below⟩
  · rw [getLast?_filter_eq_none fun entry member => not_both (none entry member)]
    exact ⟨_, if_pos deletion, rfl⟩
  · have isLast : (source.entries.filter
        (fun entry => source.Shows entry ∧ p entry.key.userKey)).getLast? = some entry := by
      rw [split]
      refine getLast?_filter_eq_some (decide_eq_true ⟨shown, within⟩) fun other member both => ?_
      exact last other member (of_decide_eq_true both).1 (of_decide_eq_true both).2
    rw [isLast]
    refine ⟨_, if_neg (by rw [saved]; nofun), rfl, ?_, ?_⟩
    · rw [saved]
      rfl
    · exact below

theorem findNextUserEntry_visibleMap (iterator : DBIter)
    (position : iterator.iter = some before.length) (direction : iterator.direction = .forward)
    (skips : Skips source before after skipping iterator.savedKey) (p : UserKey -> Bool)
    (none : ∀ entry ∈ before, source.Shows entry -> ¬ p entry.key.userKey = true)
    (agree : ∀ entry ∈ after, (skipping = true -> iterator.savedKey < entry.key.userKey) <->
      p entry.key.userKey = true) :
    Leads source (iterator.findNextUserEntry source.entries source.sequence skipping)
      (source.visible.find? (fun shown => p shown.1)) := by
  have same : after.find? (fun entry => Stops source skipping iterator.savedKey entry) =
      after.find? (fun entry => source.Shows entry ∧ p entry.key.userKey) :=
    find?_congr fun entry member => decide_eq_decide.mpr (and_congr_right' (agree entry member))
  have found : source.entries.find? (fun entry => source.Shows entry ∧ p entry.key.userKey) =
      after.find? (fun entry => Stops source skipping iterator.savedKey entry) := by
    rw [skips.split, find?_append_of_none fun entry member => not_both (none entry member), same]
  rw [find?_visibleMap, found]
  exact findNextUserEntry_represents position direction skips

theorem seekToFirst_represents (iterator : DBIter) :
    Leads source (iterator.seekToFirst source.entries source.sequence) source.visible.head? := by
  have first : source.visible.head? = source.visible.find? (fun _ => true) := by
    cases source.visible <;> rfl
  cases empty : source.entries with
  | nil =>
    rw [visible, visibleMap, empty]
    exact ⟨_, rfl, rfl⟩
  | cons entry rest =>
    rw [DBIter.seekToFirst, <- empty, first]
    have skips (saved : UserKey) : Skips source [] source.entries false saved :=
      ⟨rfl, fun _ _ _ member => absurd member not_mem_nil, nofun⟩
    exact findNextUserEntry_visibleMap _ rfl rfl (skips _) (fun _ => true)
      (fun _ member => absurd member not_mem_nil) (fun _ _ => ⟨fun _ => rfl, nofun⟩)

theorem seekToLast_represents (iterator : DBIter) :
    Leads source (iterator.seekToLast source.entries source.sequence) source.visible.getLast? := by
  have count : reached (if source.entries = [] then none else some (source.entries.length - 1)) =
      source.entries.length := by
    split
    · next empty => rw [empty]; rfl
    · next nonempty =>
        have positive := length_pos_iff.mpr nonempty
        simp only [reached, Option.elim_some]
        omega
  have last := getLast?_visibleMap source (fun _ => true)
  rw [filter_eq_self.mpr (fun _ _ => rfl)] at last
  rw [last]
  refine findPrevUserEntry_represents (fun _ => true) rfl (fun _ _ => rfl) ?_
  rw [count, drop_length]
  nofun

theorem userKey_lt_of_lt_sought {target : UserKey} {tag : BitVec 64}
    (packed : packSequenceAndType source.sequence .value = .ok tag)
    (member : entry ∈ source.entries) (seen : source.Sees entry)
    (less : entry.key < ⟨target, tag⟩) :
    entry.key.userKey < target := by
  rcases packSequenceAndType_eq_ok packed target with ⟨sequence, isValue⟩
  exact (InternalKey.lt_sought_iff (sequence ▸ seen) (source.wellFormed entry member)
    isValue).mp less

theorem seek_represents (iterator : DBIter) (target : UserKey) :
    Leads source (iterator.seek source.entries source.sequence target)
      (source.visible.find? (fun shown => target ≤ shown.1)) := by
  have packed : packSequenceAndType source.sequence .value =
      .ok (BitVec.ofNat 64 (source.sequence * 256 + ValueType.value.code)) := by
    rw [packSequenceAndType, assertThat_of source.bounded]
    rfl
  generalize BitVec.ofNat 64 (source.sequence * 256 + ValueType.value.code) = tag at packed
  have below {entry : Entry} (member : entry ∈ source.entries) (shown : source.Shows entry)
      (less : entry.key < ⟨target, tag⟩) : ¬ decide (target ≤ entry.key.userKey) = true :=
    fun reaches => absurd (userKey_lt_of_lt_sought packed member shown.1.1 less)
      (not_lt_of_ge (of_decide_eq_true reaches))
  rw [DBIter.seek, packed]
  change Leads source (iterator.seekInternal source.entries source.sequence ⟨target, tag⟩) _
  rw [DBIter.seekInternal]
  cases found : source.entries.findIdx?
    (fun entry => (⟨target, tag⟩ : InternalKey) ≤ entry.key) with
  | none =>
    refine ⟨_, rfl, ?_⟩
    rw [find?_visibleMap source (fun key => target ≤ key), find?_eq_none.mpr]
    · rfl
    · refine fun entry member => not_both (p := fun key => target ≤ key) fun shown =>
        below member shown (lt_of_not_ge ?_)
      exact of_decide_eq_false (findIdx?_eq_none_iff.mp found entry member)
  | some index =>
    rcases findIdx?_eq_some_iff_getElem.mp found with ⟨bound, reaches, before⟩
    have count : (source.entries.take index).length = index :=
      length_take_of_le (le_of_lt bound)
    have split : source.entries = source.entries.take index ++ source.entries.drop index :=
      (take_append_drop index source.entries).symm
    have earlier : ∀ entry ∈ source.entries.take index, entry.key < ⟨target, tag⟩ := by
      intro entry member
      rcases mem_take_iff_getElem.mp member with ⟨place, _, rfl⟩
      exact lt_of_not_ge fun above =>
        absurd (decide_eq_true above) (before place (by omega))
    have later : ∀ entry ∈ source.entries.drop index, target ≤ entry.key.userKey := by
      intro entry member
      rw [drop_eq_getElem_cons bound] at member split
      exact le_trans (InternalKey.userKey_le_of_le (of_decide_eq_true reaches))
        (userKey_le_of_mem split member)
    have skips (saved : UserKey) :
        Skips source (source.entries.take index) (source.entries.drop index) false saved := by
      refine ⟨split, fun entry isLater other isEarlier seen same => ?_, nofun⟩
      have less := userKey_lt_of_lt_sought packed (mem_before split isEarlier) seen
        (earlier other isEarlier)
      exact absurd (same ▸ less) (not_lt_of_ge (later entry isLater))
    refine findNextUserEntry_visibleMap _ (congrArg some count.symm) rfl (skips _)
      (fun key => target ≤ key)
      (fun entry member shown => below (mem_before split member) shown (earlier entry member))
      (fun entry member => ⟨fun _ => decide_eq_true (later entry member), nofun⟩)

theorem nextFromReverse_represents
    (below : Below source (reached iterator.iter) iterator.savedKey) :
    Leads source (iterator.nextFromReverse source.entries source.sequence)
      (source.visible.find? (fun other => iterator.savedKey < other.1)) := by
  rw [DBIter.nextFromReverse, DBIter.turnForward]
  unfold reached at below
  generalize iterator.iter.elim 0 (fun index => index + 1) = count at below
  have split : source.entries = source.entries.take count ++ source.entries.drop count :=
    (take_append_drop count source.entries).symm
  have none : ∀ entry ∈ source.entries.take count, source.Shows entry ->
      ¬ decide (iterator.savedKey < entry.key.userKey) = true := fun entry member _ above =>
    absurd (of_decide_eq_true above) (lt_asymm (below.less entry member))
  by_cases inside : count < source.entries.length
  · have length : (source.entries.take count).length = count :=
      length_take_of_le (le_of_lt inside)
    have skips : Skips source (source.entries.take count) (source.entries.drop count) true
        iterator.savedKey := by
      refine ⟨split, fun entry isLater other isEarlier seen same => ⟨rfl, ?_⟩,
        fun entry isLater seen _ => below.rest entry isLater seen⟩
      exact le_of_lt (same ▸ below.less other isEarlier)
    rw [if_pos inside]
    exact findNextUserEntry_visibleMap { iterator with iter := some count, direction := .forward }
        (congrArg some length.symm) rfl skips
      (fun key => iterator.savedKey < key) none
      (fun entry _ => ⟨fun above => decide_eq_true (above rfl), fun above _ =>
        of_decide_eq_true above⟩)
  · -- not reached by a valid iterator: the shown key is not among the first `count` entries
    have all : source.entries.take count = source.entries :=
      take_of_length_le (le_of_not_gt inside)
    rw [if_neg inside, find?_visibleMap source (fun key => iterator.savedKey < key)]
    refine ⟨_, rfl, ?_⟩
    rw [find?_eq_none.mpr]
    · rfl
    · exact fun entry member => not_both (p := fun key => iterator.savedKey < key)
        (none entry (all.symm ▸ member))

theorem nextFromForward_represents (split : source.entries = before ++ entry :: after)
    (position : iterator.iter = some before.length) (direction : iterator.direction = .forward) :
    Leads source (iterator.nextFromForward source.entries source.sequence)
      (source.visible.find? (fun other => entry.key.userKey < other.1)) := by
  have atEntry : iterator.iter.bind (fun index => source.entries[index]?) = some entry := by
    rw [position, split]
    simp
  have notAbove : ∀ earlier ∈ before, earlier.key.userKey ≤ entry.key.userKey :=
    fun earlier member => userKey_le split member mem_cons_self
  have skips : Skips source before (entry :: after) true entry.key.userKey :=
    ⟨split, fun later _ earlier isEarlier _ same => ⟨rfl, same ▸ notAbove earlier isEarlier⟩,
      fun later member _ _ => userKey_le_of_mem split member⟩
  rw [DBIter.nextFromForward, atEntry]
  exact findNextUserEntry_visibleMap { iterator with savedKey := entry.key.userKey } position
    direction skips (fun key => entry.key.userKey < key)
    (fun earlier member _ above =>
      absurd (of_decide_eq_true above) (not_lt_of_ge (notAbove earlier member)))
    (fun later _ => ⟨fun above => decide_eq_true (above rfl), fun above _ =>
      of_decide_eq_true above⟩)

theorem next_represents {shown : UserKey × Bytes}
    (represents : Represents source iterator (some shown)) :
    Leads source (iterator.next source.entries source.sequence)
      (source.visible.find? (fun other => shown.1 < other.1)) := by
  rcases represents with ⟨valid, stands⟩
  rw [DBIter.next, assertThat_of valid]
  split at stands
  next direction =>
    rcases stands with ⟨_, _, _, split, position, _, rfl⟩
    rw [direction]
    exact nextFromForward_represents split position direction
  next direction =>
    rcases stands with ⟨rfl, below⟩
    rw [direction]
    exact nextFromReverse_represents below

theorem findPrevUserEntry_below {key : UserKey} (direction : iterator.direction = .reverse)
    (below : Below source (reached iterator.iter) key) :
    Leads source (iterator.findPrevUserEntry source.entries source.sequence)
      (source.visible.filter (fun other => other.1 < key)).getLast? := by
  rw [getLast?_visibleMap source (fun other => other < key)]
  refine findPrevUserEntry_represents (fun other => other < key) direction
    (fun entry member => decide_eq_true (below.less entry member)) ?_
  intro entry member seen less
  exact absurd (of_decide_eq_true less) (not_lt_of_ge (below.rest entry member seen))

theorem prevFromForward_represents (split : source.entries = before ++ entry :: after)
    (position : iterator.iter = some before.length) :
    Leads source (iterator.prevFromForward source.entries source.sequence)
      (source.visible.filter (fun other => other.1 < entry.key.userKey)).getLast? := by
  have atEntry : iterator.iter.bind
      (fun index => source.entries[index]?.map (fun entry => (index, entry))) =
        some (before.length, entry) := by
    rw [position, split]
    simp
  have taken : source.entries.take before.length = before := by rw [split, take_left]
  have scanned := scanBack_below entry.key.userKey before.reverse
    (by rw [reverse_reverse]; exact split) (fun _ => userKey_le_of_mem split)
  rw [DBIter.prevFromForward, atEntry]
  dsimp only
  rw [taken]
  rcases scanned with ⟨none, all⟩ | ⟨_, found, below⟩
  · rw [none, getLast?_visibleMap source (fun other => other < entry.key.userKey)]
    refine ⟨_, rfl, ?_⟩
    rw [getLast?_filter_eq_none]
    · rfl
    · intro other member both
      exact absurd (of_decide_eq_true (of_decide_eq_true both).2) (not_lt_of_ge (all other member))
  · rw [found]
    exact findPrevUserEntry_below rfl below

theorem prev_represents {shown : UserKey × Bytes}
    (represents : Represents source iterator (some shown)) :
    Leads source (iterator.prev source.entries source.sequence)
      (source.visible.filter (fun other => other.1 < shown.1)).getLast? := by
  rcases represents with ⟨valid, stands⟩
  rw [DBIter.prev, assertThat_of valid]
  split at stands
  next direction =>
    rcases stands with ⟨_, _, _, split, position, _, rfl⟩
    rw [direction]
    exact prevFromForward_represents split position
  next direction =>
    rw [direction]
    exact findPrevUserEntry_below direction stands.2

theorem call_represents (iterator : DBIter) (shown : Option (UserKey × Bytes))
    (call : CursorCall UserKey) (represents : Represents source iterator shown) :
    (∃ next after, iterator.call source.entries source.sequence call = .ok next ∧
      Cursor.move Prod.fst source.visible shown call = .ok after ∧
      Represents source next after) ∨
    (∃ text reason, iterator.call source.entries source.sequence call = .error text ∧
      Cursor.move Prod.fst source.visible shown call = .error reason) := by
  have invalid (none : Represents source iterator none) : ¬ iterator.valid = true := by
    rw [show iterator.valid = false from none]
    nofun
  cases call with
  | seekToFirst =>
    rcases seekToFirst_represents iterator with ⟨next, ran, after⟩
    exact Or.inl ⟨next, _, ran, by cases shown <;> rfl, after⟩
  | seekToLast =>
    rcases seekToLast_represents iterator with ⟨next, ran, after⟩
    exact Or.inl ⟨next, _, ran, by cases shown <;> rfl, after⟩
  | seek target =>
    rcases seek_represents iterator target with ⟨next, ran, after⟩
    exact Or.inl ⟨next, _, ran, by cases shown <;> rfl, after⟩
  | next =>
    cases shown with
    | none =>
      refine Or.inr ⟨"valid_", (), ?_, rfl⟩
      rw [DBIter.call, DBIter.next, assertThat_of_not (invalid represents)]
      rfl
    | some shown =>
      rcases next_represents represents with ⟨next, ran, after⟩
      exact Or.inl ⟨next, _, ran, rfl, after⟩
  | prev =>
    cases shown with
    | none =>
      refine Or.inr ⟨"valid_", (), ?_, rfl⟩
      rw [DBIter.call, DBIter.prev, assertThat_of_not (invalid represents)]
      rfl
    | some shown =>
      rcases prev_represents represents with ⟨next, ran, after⟩
      exact Or.inl ⟨next, _, ran, rfl, after⟩

/-- `DBIter` is a cursor over the visible map: any sequence of calls fails on both, by
a `Next` or `Prev` without a valid position, or leaves both at the same item. -/
theorem run_refines_cursor (source : InternalEntries) (calls : List (CursorCall UserKey)) :
    (DBIter.run source.entries source.sequence calls).toOption.map
        (fun iterator => iterator.current source.entries) =
      (Cursor.run Prod.fst (visibleMap source.entries source.sequence) calls).toOption := by
  have start : Represents source DBIter.new none := rfl
  rcases foldlM_simulation (Represents source) call_represents calls start with
    ⟨_, _, ran, moved, represents⟩ | ⟨_, _, ran, moved⟩
  · rw [DBIter.run, Cursor.run, ran, moved]
    exact congrArg some represents.current
  · rw [DBIter.run, Cursor.run, ran, moved]
    rfl

end InternalEntries

end
end Db
end Doux
