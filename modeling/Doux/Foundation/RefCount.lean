import Mathlib.Tactic

namespace Doux
namespace Foundation

open List

/-!
# Reference counts

A list of nodes that are shared by reference counting.  A new node enters the list with
one reference, and a node leaves it with its last one.  `Accounts` compares the counts
with the references that somebody really holds.  As long as every reference is held by
someone who will give it up, the list holds exactly the nodes that are in use.
-/

/-- A node with the number of its references. -/
structure Node (α : Type) where
  id : Nat
  refs : Nat
  content : α
deriving DecidableEq

/-- The nodes, in the order in which they were added, and the next free name. -/
structure Arena (α : Type) where
  nodes : List (Node α)
  next : Nat

namespace Arena

variable {α : Type} {arena : Arena α} {holders : Multiset Nat} {id : Nat}

def ids (arena : Arena α) : List Nat := arena.nodes.map Node.id

/-- Add a node with one reference, which has the name `arena.next`. -/
def append (content : α) (arena : Arena α) : Arena α :=
  ⟨arena.nodes ++ [⟨arena.next, 1, content⟩], arena.next + 1⟩

def addRef (id : Nat) (node : Node α) : Node α :=
  if node.id = id then { node with refs := node.refs + 1 } else node

def ref (id : Nat) (arena : Arena α) : Arena α :=
  { arena with nodes := arena.nodes.map (addRef id) }

def dropRef (id : Nat) (node : Node α) : Option (Node α) :=
  if node.id = id then
    if node.refs = 1 then none else some { node with refs := node.refs - 1 }
  else some node

/-- Give up a reference.  There must be one. -/
def unref (id : Nat) (arena : Arena α) : Option (Arena α) :=
  if arena.nodes.any (fun node => decide (node.id = id) && decide (node.refs ≥ 1)) then
    some { arena with nodes := arena.nodes.filterMap (dropRef id) }
  else none

/-- Every count is the number of the holders, and exactly the nodes with a holder are in
the list. -/
structure Accounts (holders : Multiset Nat) (arena : Arena α) : Prop where
  distinct : arena.ids.Nodup
  below : ∀ id ∈ arena.ids, id < arena.next
  counts : ∀ node ∈ arena.nodes, node.refs = holders.count node.id
  inUse : forall id, id ∈ arena.ids <-> id ∈ holders

theorem ids_append (content : α) : (arena.append content).ids = arena.ids ++ [arena.next] := by
  simp [ids, append]

theorem Accounts.append (accounts : Accounts holders arena) (content : α) :
    Accounts (arena.next ::ₘ holders) (arena.append content) := by
  have isNew : arena.next ∉ arena.ids := fun used => lt_irrefl _ (accounts.below _ used)
  have notHeld : arena.next ∉ holders := fun used => isNew ((accounts.inUse _).mpr used)
  refine ⟨?_, ?_, ?_, ?_⟩
  · rw [ids_append]
    exact accounts.distinct.append (nodup_singleton _) (by simpa using isNew)
  · intro id used
    rw [ids_append, mem_append, mem_singleton] at used
    rcases used with old | rfl
    · exact Nat.lt_succ_of_lt (accounts.below id old)
    · exact Nat.lt_succ_self _
  · intro node isNode
    rcases mem_append.mp isNode with old | new
    · have other : node.id ≠ arena.next := by
        intro same
        exact isNew (same ▸ mem_map_of_mem old)
      rw [Multiset.count_cons_of_ne other, accounts.counts node old]
    · rw [mem_singleton.mp new, Multiset.count_cons_self, Multiset.count_eq_zero_of_notMem notHeld]
  · intro id
    rw [ids_append]
    simp [accounts.inUse id, or_comm]

theorem ids_ref : (arena.ref id).ids = arena.ids := by
  simp only [ids, ref, map_map]
  apply map_congr_left
  intro node _
  change (addRef id node).id = node.id
  unfold addRef
  split <;> rfl

theorem Accounts.ref (accounts : Accounts holders arena) (held : id ∈ holders) :
    Accounts (id ::ₘ holders) (arena.ref id) := by
  refine ⟨?_, ?_, ?_, ?_⟩
  · rw [ids_ref]
    exact accounts.distinct
  · rw [ids_ref]
    exact accounts.below
  · intro node isNode
    rcases mem_map.mp isNode with ⟨before, isBefore, rfl⟩
    have counted := accounts.counts before isBefore
    unfold addRef
    split
    case isTrue same => simp [counted, same]
    case isFalse other => rw [Multiset.count_cons_of_ne other, counted]
  · intro _
    rw [ids_ref, accounts.inUse]
    simp only [Multiset.mem_cons, iff_or_self]
    rintro rfl
    exact held

/-- The node that a name belongs to. -/
theorem Accounts.exists_node (accounts : Accounts holders arena) (held : id ∈ holders) :
    ∃ node ∈ arena.nodes, node.id = id ∧ 1 ≤ node.refs := by
  rcases mem_map.mp ((accounts.inUse id).mpr held) with ⟨node, isNode, rfl⟩
  refine ⟨node, isNode, rfl, ?_⟩
  rw [accounts.counts node isNode]
  exact Multiset.one_le_count_iff_mem.mpr held

theorem dropRef_eq_some {node after : Node α} : dropRef id node = some after <->
      node.id = id ∧ node.refs ≠ 1 ∧ { node with refs := node.refs - 1 } = after ∨
        node.id ≠ id ∧ node = after := by
  unfold dropRef
  by_cases same : node.id = id
  · by_cases last : node.refs = 1
    · simp [same]
    · simp [same]
  · simp [same]

theorem dropRef_id {node after : Node α} (dropped : dropRef id node = some after) :
    after.id = node.id := by
  rcases dropRef_eq_some.mp dropped with ⟨_, _, rfl⟩ | ⟨_, rfl⟩ <;> rfl

theorem ids_dropRef (id : Nat) (nodes : List (Node α)) :
    ((nodes.filterMap (dropRef id)).map Node.id).Sublist (nodes.map Node.id) := by
  induction nodes with
  | nil => exact List.Sublist.refl _
  | cons first rest ih =>
    rw [filterMap_cons]
    cases dropped : dropRef id first with
    | none => exact ih.cons _
    | some after =>
      simp only [map_cons, dropRef_id dropped]
      exact ih.cons_cons _

section
variable (accounts : Accounts (id ::ₘ holders) arena)
include accounts

/-- A node stays if it has another holder. -/
theorem Accounts.stays {node : Node α} (isNode : node ∈ arena.nodes) (held : node.id ∈ holders) :
    ∃ after ∈ arena.nodes.filterMap (dropRef id), after.id = node.id := by
  have counted := accounts.counts node isNode
  by_cases same : node.id = id
  · have more : node.refs ≠ 1 := by
      have positive := Multiset.count_pos.mpr held
      rw [same] at counted positive
      rw [Multiset.count_cons_self] at counted
      omega
    refine ⟨{ node with refs := node.refs - 1 }, ?_, rfl⟩
    exact mem_filterMap.mpr ⟨node, isNode, dropRef_eq_some.mpr (Or.inl ⟨same, more, rfl⟩)⟩
  · refine ⟨node, mem_filterMap.mpr ⟨node, isNode, ?_⟩, rfl⟩
    exact dropRef_eq_some.mpr (Or.inr ⟨same, rfl⟩)

/-- A node that stays has one reference for every holder that is left, and one holder at
least. -/
theorem Accounts.counts_dropRef {after : Node α}
    (isAfter : after ∈ arena.nodes.filterMap (dropRef id)) :
    after.refs = holders.count after.id ∧ after.id ∈ holders := by
  rcases mem_filterMap.mp isAfter with ⟨before, isBefore, dropped⟩
  have counted := accounts.counts before isBefore
  have isHeld := (accounts.inUse before.id).mp (mem_map_of_mem isBefore)
  rcases dropRef_eq_some.mp dropped with ⟨same, _, rfl⟩ | ⟨different, rfl⟩
  · rw [same, Multiset.count_cons_self] at counted
    have left : before.refs - 1 = holders.count id := by omega
    refine ⟨?_, ?_⟩
    · simpa [same] using left
    · rw [same]
      exact Multiset.one_le_count_iff_mem.mp (by omega)
  · rw [Multiset.count_cons_of_ne different] at counted
    exact ⟨counted, (Multiset.mem_cons.mp isHeld).resolve_left different⟩

/-- A reference that is held can be given up. -/
theorem Accounts.unref : ∃ after, arena.unref id = some after ∧ Accounts holders after := by
  rcases accounts.exists_node (Multiset.mem_cons_self id holders) with
    ⟨node, isNode, named, positive⟩
  have found : arena.nodes.any
      (fun node => decide (node.id = id) && decide (node.refs ≥ 1)) = true :=
    any_eq_true.mpr ⟨node, isNode, by simp [named, positive]⟩
  have sub := ids_dropRef id arena.nodes
  refine ⟨_, if_pos found, accounts.distinct.sublist sub,
    fun other used => accounts.below other (sub.subset used),
    fun after isAfter => (accounts.counts_dropRef isAfter).1, fun other => ⟨?_, ?_⟩⟩
  · intro used
    rcases mem_map.mp used with ⟨_, isAfter, rfl⟩
    exact (accounts.counts_dropRef isAfter).2
  · intro held
    rcases accounts.exists_node (Multiset.mem_cons_of_mem held) with ⟨_, isBefore, rfl, _⟩
    exact mem_map.mpr (accounts.stays isBefore held)

end

/-- With one holder there is one node. -/
theorem Accounts.ids_eq_singleton (accounts : Accounts {id} arena) : arena.ids = [id] := by
  refine perm_singleton.mp ?_
  refine (perm_ext_iff_of_nodup accounts.distinct (nodup_singleton id)).mpr ?_
  intro other
  simp [accounts.inUse other]

end Arena

end Foundation
end Doux
