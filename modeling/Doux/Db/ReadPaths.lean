import Doux.Db.DBIter
import Doux.Db.ReadBack

namespace Doux
namespace Db

open Foundation List

/-!
# Iterators and `Get`

An iterator and `Get` find the newest version of a user key in different ways: the one
walks through all stored entries in key order, the other searches one place after the
other.  In every state of a run they agree.
-/

/-- Where sequence numbers identify the versions, the newest by tag is the newest by
sequence number. -/
theorem newest_iff_isNewest {entries : List Entry} {sequence : Nat} {entry : Entry}
    (distinct : entryVersions.Distinct entries) (member : entry ∈ entries) :
    Newest entries sequence entry <->
      entryVersions.IsNewest entries entry.key.userKey sequence entry := by
  constructor
  · rintro ⟨visible, newest⟩
    exact ⟨member, rfl, visible, fun other isOther same seen =>
      InternalKey.sequence_le_of_tag_le (newest other isOther same seen)⟩
  · intro newest
    refine ⟨newest.visible, fun other isOther same seen => ?_⟩
    rcases lt_or_eq_of_le (newest.newest other isOther same seen) with older | equal
    · exact le_of_lt (InternalKey.tag_lt_of_sequence_lt older)
    · rw [distinct other isOther entry member same equal]

section
variable [LinearOrder UserKey]

section
variable {source : InternalEntries} (distinct : entryVersions.Distinct source.entries)
  {userKey : UserKey} {put : Bytes}
include distinct

theorem mem_visible : (userKey, put) ∈ source.visible <-> ∃ entry,
      entryVersions.findNewest userKey source.sequence source.entries = some entry ∧
        entry.key.type = some .value ∧ entry.value = put := by
  simp only [InternalEntries.visible, visibleMap, mem_map, mem_filter,
    Versioned.findNewest_eq_some distinct]
  constructor
  · rintro ⟨entry, ⟨member, isShown⟩, same⟩
    cases same
    rcases of_decide_eq_true isShown with ⟨newest, isValue⟩
    exact ⟨entry, (newest_iff_isNewest distinct member).mp newest, isValue, rfl⟩
  · rintro ⟨entry, newest, isValue, rfl⟩
    cases newest.key_eq
    exact ⟨entry, ⟨newest.mem, decide_eq_true
      ⟨(newest_iff_isNewest distinct newest.mem).mpr newest, isValue⟩⟩, rfl⟩

/-- `Seek` to a key shows the key exactly if it is visible: user keys do not decrease along the
entries, and a visible key has one value. -/
theorem seek_shows_iff :
    (∃ iterator, DBIter.run source.entries source.sequence [.seek userKey] = .ok iterator ∧
        iterator.current source.entries = some (userKey, put)) <->
      (userKey, put) ∈ source.visible := by
  rcases (InternalEntries.seek_represents .new userKey : InternalEntries.Leads source _ _) with
    ⟨iterator, ran, represents⟩
  have runs : DBIter.run source.entries source.sequence [.seek userKey] = .ok iterator := by
    rw [DBIter.run, foldlM_cons, DBIter.call, ran]
    rfl
  have ordered : source.visible.Pairwise (fun first second => first.1 ≤ second.1) :=
    pairwise_map.mpr ((source.ordered.imp fun less =>
      InternalKey.userKey_le_of_le (le_of_lt less)).filter _)
  constructor
  · rintro ⟨_, again, shows⟩
    cases runs.symm.trans again
    exact mem_of_find?_eq_some (represents.current.symm.trans shows)
  · intro visible
    refine ⟨iterator, runs, represents.current.trans ?_⟩
    have some : (source.visible.find? (fun shown => userKey ≤ shown.1)).isSome :=
      find?_isSome.mpr ⟨_, visible, decide_eq_true (le_refl userKey)⟩
    rcases Option.isSome_iff_exists.mp some with ⟨⟨key, value⟩, found⟩
    rcases find?_eq_some_iff_append.mp found with ⟨reaches, before, after, split, below⟩
    rw [found]
    have least : key ≤ userKey := by
      rw [split] at visible ordered
      rcases mem_append.mp visible with earlier | later
      · simpa using below _ earlier
      · rcases mem_cons.mp later with same | later
        · cases same
          exact le_refl _
        · exact (pairwise_cons.mp (pairwise_append.mp ordered).2.1).1 _ later
    cases le_antisymm least (of_decide_eq_true reaches)
    rcases (mem_visible distinct).mp visible with ⟨_, newest, _, rfl⟩
    rcases (mem_visible distinct).mp (mem_of_find?_eq_some found) with ⟨_, again, _, rfl⟩
    cases newest.symm.trans again
    rfl

end

/-- With `MOD` 0, in every state of a run and at every snapshot that is held, `Seek` of an
iterator over the stored entries shows a key with a value exactly if `Get` returns the value,
whatever the caller's string is; and these are the keys that any calls of the iterator can
show. -/
theorem visible_iff_get (config : Config) (zero : config.mod = 0) (actions : List Action)
    (db : Database) (run : Database.run config actions = .ok db) (chosen : Option Nat)
    (holds : db.Holds chosen) (source : InternalEntries)
    (stored : ∀ entry, entry ∈ source.entries <-> entry ∈ db.entries)
    (snapshot : source.sequence = chosen.getD db.lastSequence) (userKey : UserKey) (put : Bytes) :
    ((∃ iterator, DBIter.run source.entries source.sequence [.seek userKey] = .ok iterator ∧
        iterator.current source.entries = some (userKey, put)) <->
      forall value, db.get config userKey chosen value = .ok ⟨.ok, put⟩) ∧
    ((userKey, put) ∈ source.visible <->
      forall value, db.get config userKey chosen value = .ok ⟨.ok, put⟩) := by
  have inv := inv_of_run (by rw [zero]; decide) run
  have distinct := inv.readable.distinct
  have ten : config.mod ≠ 10 := by rw [zero]; decide
  have known := distinct.of_subset fun entry => (stored entry).mp
  rw [seek_shows_iff known, and_self, mem_visible known, snapshot,
    Versioned.findNewest_congr distinct stored]
  simp only [inv.readable.get_eq_of_plain userKey _ _ rfl (inv.snapshot_bounds holds).2 ten]
  cases found : entryVersions.findNewest userKey (chosen.getD db.lastSequence) db.entries with
  | none =>
    -- nothing is found, and the caller's string is returned as it was
    have other : ∃ value : Bytes, value ≠ put := exists_ne put
    simpa using other
  | some entry => by_cases isValue : entry.key.type = some .value <;> simp [Entry.result, isValue]

end

section Bytewise

open Bytewise

/-- The iterator over the entries of a database with one put, at its last sequence number. -/
theorem visible_iff_get_onePut : ∃ (db : Database) (source : InternalEntries) (iterator : DBIter),
    Database.run (.plain 0 (by decide)) [.write [.put ⟨[107]⟩ [1]]] = .ok db ∧
    (∀ entry, entry ∈ source.entries <-> entry ∈ db.entries) ∧
    source.sequence = db.lastSequence ∧
    DBIter.run source.entries source.sequence [.seek ⟨[107]⟩] = .ok iterator ∧
    iterator.current source.entries = some (⟨[107]⟩, [1]) ∧
    forall value, db.get (.plain 0 (by decide)) ⟨[107]⟩ none value = .ok ⟨.ok, [1]⟩ := by
  let source : InternalEntries :=
    ⟨memTableEntries 1 [.put ⟨[107]⟩ [1]], by decide, by decide, 1, by decide⟩
  rcases visible_iff_get (.plain 0 (by decide)) rfl [.write [.put ⟨[107]⟩ [1]]] _ rfl none nofun
    source (fun _ => Iff.rfl) rfl ⟨[107]⟩ [1] with ⟨sought, visible⟩
  have get := visible.mp (by decide)
  rcases sought.mpr get with ⟨iterator, runs, shows⟩
  exact ⟨_, source, iterator, rfl, fun _ => Iff.rfl, rfl, runs, shows, get⟩

end Bytewise

end Db
end Doux
