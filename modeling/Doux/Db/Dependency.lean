import Mathlib.Data.List.AList
import Doux.Foundation.Forest

namespace Doux
namespace Db

open Foundation List

/-!
# File dependencies

`struct Dependency` of `impl/dependency.h` is a union-find structure over file
numbers.  `FindParent` inserts a missing number as its own parent and shortens
the paths it follows; `SetParent` joins two trees and keeps the root of the
parent side.  The recursion of `FindParent` ends because the parent map has no
cycle, so a `Dependency` carries that fact, and both operations are total on it.

The map is an `unordered_map`; code that iterates over it may meet the entries
in any order.  An iteration is therefore given by a list of edges that is a
permutation of the entries.
-/

abbrev DepMap := AList (fun _ : Nat => Nat)

/-- The parent of a number; a missing number is its own parent. -/
def parentIn (map : DepMap) (x : Nat) : Nat := (map.lookup x).getD x

/-- `FindParent` with at most `fuel` nested calls: the result and the new map. -/
def findParentLoop : Nat -> DepMap -> Nat -> Option (Nat × DepMap)
  | 0, _, _ => none
  | fuel + 1, map, child =>
    let map := if map.lookup child = none then map.insert child child else map
    let parent := (map.lookup child).getD 0
    if parent ≠ child then
      match findParentLoop fuel map parent with
      | none => none
      | some (root, map) => some (root, map.insert child root)
    else
      some (parent, map)

theorem parentIn_insert (map : DepMap) (c r : Nat) :
    parentIn (map.insert c r) = Function.update (parentIn map) c r := by
  funext x
  unfold parentIn
  by_cases same : x = c
  · rw [same, AList.lookup_insert, Function.update_self, Option.getD_some]
  · rw [AList.lookup_insert_ne same, Function.update_of_ne same]

variable {map : DepMap}

theorem parentIn_insert_missing {child : Nat} (missing : map.lookup child = none) :
    parentIn (map.insert child child) = parentIn map := by
  rw [parentIn_insert]
  apply Function.update_eq_self_iff.mpr
  unfold parentIn
  rw [missing, Option.getD_none]

theorem mem_keys_of_parentIn_ne {x : Nat} (moves : parentIn map x ≠ x) : x ∈ map.keys := by
  by_contra outside
  apply moves
  unfold parentIn
  rw [AList.lookup_eq_none.mpr (fun member => outside (AList.mem_keys.mp member)), Option.getD_none]

/-- What `FindParent` does: it returns the root, keeps all roots, adds no number
but the one it was asked for and its root, and writes only roots. -/
theorem findParentLoop_spec (fuel : Nat) (map : DepMap) (root : Nat -> Nat)
    (roots : IsRoot (parentIn map) root) (count child : Nat)
    (path : Path (parentIn map) count child (root child)) (enough : count < fuel) :
    ∃ next, findParentLoop fuel map child = some (root child, next) ∧
      IsRoot (parentIn next) root ∧ (∀ k, k = child ∨ k ∈ map -> k ∈ next) ∧
      (∀ k ∈ next, k = root child ∨ k ∈ map) ∧
      (∀ k v, next.lookup k = some v -> map.lookup k = some v ∨ v = root k) := by
  induction fuel generalizing count child with
  | zero => omega
  | succ fuel ih =>
    rw [findParentLoop]
    cases found : map.lookup child with
    | none =>
      have self : root child = child := roots.eq_self (by rw [parentIn, found, Option.getD_none])
      refine ⟨map.insert child child, ?_, ?_, ?_, ?_, ?_⟩
      · simp [self]
      · rw [parentIn_insert_missing found]
        exact roots
      · intro k member
        exact (AList.mem_insert _).mpr member
      · intro k member
        rw [self]
        exact (AList.mem_insert _).mp member
      · intro k v value
        by_cases same : k = child
        · rw [same, AList.lookup_insert] at value
          cases value
          exact Or.inr (by rw [same, self])
        · rw [AList.lookup_insert_ne same] at value
          exact Or.inl value
    | some parent =>
      have parentEq : parentIn map child = parent := by rw [parentIn, found, Option.getD_some]
      have present : child ∈ map := AList.lookup_isSome.mp (by rw [found]; rfl)
      simp only [reduceCtorEq, if_false, found, Option.getD_some]
      by_cases fixed : parentIn map child = child
      · have self : parent = child := parentEq.symm.trans fixed
        rw [if_neg (not_not.mpr self)]
        refine ⟨map, by rw [roots.eq_self fixed, self], roots, ?_, fun _ => Or.inr,
          fun _ _ => Or.inl⟩
        intro k either
        exact either.elim (fun same => same ▸ present) id
      · rcases path.tail fixed with ⟨shorter, _, rest⟩
        have sameRoot : root parent = root child := parentEq ▸ roots.parent_eq child
        have rest : Path (parentIn map) shorter parent (root parent) := by
          rw [sameRoot, <- parentEq]
          exact rest
        rcases ih shorter parent rest (by omega) with ⟨next, call, nextRoots, kept, keys, values⟩
        rw [if_pos (fun equal => fixed (parentEq.trans equal)), call]
        have distinct : root parent ≠ child := by
          rw [sameRoot]
          intro equal
          have rooted := roots.fixed child
          rw [equal] at rooted
          exact fixed rooted
        have updated := nextRoots.update (nextRoots.fixed parent) distinct (Or.inr sameRoot.symm)
        refine ⟨next.insert child (root parent), by rw [sameRoot], ?_, ?_, ?_, ?_⟩
        · rw [parentIn_insert]
          have same : redirect root (root parent) child = root := by
            funext x
            unfold redirect
            rw [roots.idem, sameRoot]
            split
            · next equal => exact equal.symm
            · rfl
          rw [same] at updated
          exact updated
        · intro k either
          rw [AList.mem_insert]
          exact either.imp id (fun member => kept k (Or.inr member))
        · intro k member
          rcases (AList.mem_insert _).mp member with same | member
          · exact Or.inr (same ▸ present)
          · rw [<- sameRoot]
            exact keys k member
        · intro k v value
          by_cases same : k = child
          · rw [same, AList.lookup_insert] at value
            cases value
            exact Or.inr (by rw [same, sameRoot])
          · rw [AList.lookup_insert_ne same] at value
            exact values k v value

/-- A parent map without cycles. -/
structure Dependency where
  depMap : DepMap
  acyclic : ∃ root, IsRoot (parentIn depMap) root

namespace Dependency

def empty : Dependency := ⟨∅, fun x => x, isRoot_id⟩

variable (dep : Dependency)

theorem findParentLoop_isSome (child : Nat) :
    (findParentLoop (dep.depMap.keys.length + 1) dep.depMap child).isSome := by
  rcases dep.acyclic with ⟨root, roots⟩
  rcases roots child with ⟨count, path⟩
  have bound := path.count_le (fun _ => mem_keys_of_parentIn_ne)
  rcases findParentLoop_spec (dep.depMap.keys.length + 1) dep.depMap root roots count child path
    (by omega) with ⟨_, call, _⟩
  rw [call]
  rfl

/-- The call of `FindParent` on a map without cycles. -/
def findParentCall (dep : Dependency) (child : Nat) : Nat × DepMap :=
  (findParentLoop (dep.depMap.keys.length + 1) dep.depMap child).get
    (dep.findParentLoop_isSome child)

theorem findParentCall_spec (child : Nat) (root : Nat -> Nat)
    (roots : IsRoot (parentIn dep.depMap) root) : (dep.findParentCall child).1 = root child ∧
      IsRoot (parentIn (dep.findParentCall child).2) root ∧
      (∀ k, k = child ∨ k ∈ dep.depMap -> k ∈ (dep.findParentCall child).2) ∧
      (∀ k ∈ (dep.findParentCall child).2, k = root child ∨ k ∈ dep.depMap) ∧
      (∀ k v, (dep.findParentCall child).2.lookup k = some v ->
        dep.depMap.lookup k = some v ∨ v = root k) := by
  rcases roots child with ⟨count, path⟩
  have bound := path.count_le (fun _ => mem_keys_of_parentIn_ne)
  rcases findParentLoop_spec (dep.depMap.keys.length + 1) dep.depMap root roots count child path
    (by omega) with ⟨next, call, nextRoots, kept, keys, values⟩
  have result : dep.findParentCall child = (root child, next) := by
    unfold findParentCall
    simp [call]
  rw [result]
  exact ⟨rfl, nextRoots, kept, keys, values⟩

/-- `Dependency::FindParent`. -/
def findParent (dep : Dependency) (child : Nat) : Nat × Dependency :=
  ((dep.findParentCall child).1, ⟨(dep.findParentCall child).2, by
    rcases dep.acyclic with ⟨root, roots⟩
    exact ⟨root, (dep.findParentCall_spec child root roots).2.1⟩⟩)

/-- The result of `FindParent` for every number. -/
def root (dep : Dependency) (child : Nat) : Nat := (dep.findParent child).1

theorem isRoot_root : IsRoot (parentIn dep.depMap) dep.root := by
  rcases dep.acyclic with ⟨root, roots⟩
  have same : dep.root = root := by
    funext child
    exact (dep.findParentCall_spec child root roots).1
  rw [same]
  exact roots

variable {dep : Dependency}

theorem root_of_isRoot {root : Nat -> Nat} (roots : IsRoot (parentIn dep.depMap) root) :
    dep.root = root :=
  dep.isRoot_root.unique roots

theorem root_findParent (child : Nat) : (dep.findParent child).2.root = dep.root :=
  root_of_isRoot (dep.findParentCall_spec child dep.root dep.isRoot_root).2.1

/-- The map of `SetParent` after its two calls of `FindParent`. -/
def foundBoth (dep : Dependency) (parent child : Nat) : Dependency :=
  ((dep.findParent parent).2.findParent child).2

theorem root_foundBoth (parent child : Nat) : (dep.foundBoth parent child).root = dep.root := by
  unfold foundBoth
  rw [root_findParent, root_findParent]

theorem isRoot_join (parent child : Nat) (distinct : dep.root parent ≠ dep.root child) :
    IsRoot (parentIn (dep.depMap.insert (dep.root child) (dep.root parent)))
      (redirect dep.root parent child) := by
  have roots := dep.isRoot_root
  have joined := roots.update (roots.fixed parent) distinct (Or.inl (roots.idem child))
  rw [parentIn_insert]
  have same : redirect dep.root (dep.root parent) (dep.root child) =
      redirect dep.root parent child := by
    unfold redirect
    rw [roots.idem, roots.idem]
  rw [same] at joined
  exact joined

/-- `Dependency::SetParent`. -/
def setParent (dep : Dependency) (parent child : Nat) : Dependency :=
  let root1 := (dep.findParent parent).1
  let root2 := ((dep.findParent parent).2.findParent child).1
  if same : root1 = root2 then
    dep.foundBoth parent child
  else
    ⟨(dep.foundBoth parent child).depMap.insert root2 root1, redirect dep.root parent child, by
        have joined := (dep.foundBoth parent child).isRoot_join parent child
        rw [root_foundBoth] at joined
        have second : root2 = dep.root child := congrFun (dep.root_findParent parent) child
        rw [second]
        exact joined (fun equal => same (second ▸ equal))⟩

theorem root_setParent (parent child : Nat) :
    (dep.setParent parent child).root = redirect dep.root parent child := by
  have second : ((dep.findParent parent).2.findParent child).1 = dep.root child :=
    congrFun (dep.root_findParent parent) child
  unfold setParent
  simp only
  split
  · next same =>
      rw [root_foundBoth]
      funext x
      unfold redirect
      have equal : dep.root parent = dep.root child := same.trans second
      rw [equal]
      split
      · next here => exact here
      · rfl
  · next distinct =>
      apply root_of_isRoot
      have joined := (dep.foundBoth parent child).isRoot_join parent child
      rw [root_foundBoth] at joined
      simp only [second]
      exact joined (fun equal => distinct (second ▸ equal))

/-! ## Iterating over a dependency map -/

/-- The entries as edges from child to parent. -/
def edges (dep : Dependency) : List (Nat × Nat) :=
  dep.depMap.entries.map (fun entry => (entry.1, entry.2))

theorem mem_edges {child parent : Nat} :
    (child, parent) ∈ dep.edges <-> dep.depMap.lookup child = some parent := by
  rw [<- Option.mem_def, AList.mem_lookup_iff]
  constructor
  · intro member
    rcases mem_map.mp member with ⟨⟨_, _⟩, inside, equal⟩
    cases equal
    exact inside
  · intro member
    exact mem_map.mpr ⟨_, member, rfl⟩

theorem map_fst_edges : dep.edges.map Prod.fst = dep.depMap.keys := by
  unfold edges
  rw [map_map]
  rfl

/-- `SetParent` for every edge, in the order of the list. -/
def setParents (dep : Dependency) (edges : List (Nat × Nat)) : Dependency :=
  edges.foldl (fun dep edge => dep.setParent edge.2 edge.1) dep

theorem root_setParents (edges : List (Nat × Nat)) :
    (dep.setParents edges).root = redirectAll dep.root edges := by
  induction edges generalizing dep with
  | nil => rfl
  | cons edge edges ih =>
    change ((dep.setParent edge.2 edge.1).setParents edges).root = _
    rw [ih, root_setParent]
    rfl

theorem root_empty : empty.root = fun x => x := root_of_isRoot isRoot_id

variable {order : List (Nat × Nat)}

/-- Copying the entries into an empty map, in any order, keeps all roots. -/
theorem root_setParents_empty (perm : order.Perm dep.edges) :
    (empty.setParents order).root = dep.root := by
  rw [root_setParents, root_empty]
  have keys : (order.map Prod.fst).Perm dep.depMap.keys := by
    rw [<- map_fst_edges]
    exact perm.map Prod.fst
  apply redirectAll_edges dep.isRoot_root
  · exact keys.nodup_iff.mpr dep.depMap.keys_nodup
  · rintro ⟨_, parent⟩ member
    have found := mem_edges.mp (perm.mem_iff.mp member)
    rw [parentIn, found, Option.getD_some]
  · intro _ moves
    exact keys.mem_iff.mpr (mem_keys_of_parentIn_ne moves)

/-- Every entry has the parent `output`. -/
def LeadsTo (dep : Dependency) (output : Nat) : Prop :=
  ∀ edge ∈ dep.edges, edge.2 = output

theorem leadsTo_empty (output : Nat) : empty.LeadsTo output := by
  intro _ member
  cases member

variable {output : Nat}

theorem LeadsTo.value {k v : Nat} (leads : dep.LeadsTo output)
    (found : dep.depMap.lookup k = some v) : v = output :=
  leads (k, v) (mem_edges.mpr found)

theorem LeadsTo.root_output (leads : dep.LeadsTo output) : dep.root output = output := by
  apply dep.isRoot_root.eq_self
  unfold parentIn
  cases found : dep.depMap.lookup output with
  | none => rfl
  | some v => exact leads.value found

theorem LeadsTo.root_of_mem {k : Nat} (leads : dep.LeadsTo output) (member : k ∈ dep.depMap) :
    dep.root k = output := by
  rcases Option.isSome_iff_exists.mp (AList.lookup_isSome.mpr member) with ⟨_, found⟩
  rw [<- dep.isRoot_root.parent_eq k, parentIn, found, Option.getD_some, leads.value found,
    leads.root_output]

theorem findParent_keys (child k : Nat) :
    (k = child ∨ k ∈ dep.depMap -> k ∈ (dep.findParent child).2.depMap) ∧
      (k ∈ (dep.findParent child).2.depMap -> k = dep.root child ∨ k ∈ dep.depMap) := by
  have spec := dep.findParentCall_spec child dep.root dep.isRoot_root
  exact ⟨spec.2.2.1 k, spec.2.2.2.1 k⟩

theorem findParent_value (child k v : Nat)
    (found : (dep.findParent child).2.depMap.lookup k = some v) :
    dep.depMap.lookup k = some v ∨ v = dep.root k :=
  (dep.findParentCall_spec child dep.root dep.isRoot_root).2.2.2.2 k v found

theorem mem_of_lookup {k v : Nat} (found : map.lookup k = some v) : k ∈ map :=
  AList.lookup_isSome.mp (by rw [found]; rfl)

section
variable (leads : dep.LeadsTo output)
include leads

/-- Asking for a number whose root is the output keeps the form. -/
theorem LeadsTo.findParent {child : Nat} (known : dep.root child = output) :
    (dep.findParent child).2.LeadsTo output := by
  rintro ⟨k, v⟩ member
  have found := mem_edges.mp member
  rcases dep.findParent_value child k v found with old | new
  · exact leads.value old
  · rcases (dep.findParent_keys child k).2 (mem_of_lookup found) with same | inside
    · rw [new, same, known, leads.root_output]
    · exact new.trans (leads.root_of_mem inside)

theorem LeadsTo.setParent (child : Nat) : (dep.setParent output child).LeadsTo output ∧
      ∀ k, k ≠ output ->
        (k ∈ (dep.setParent output child).depMap <-> k = child ∨ k ∈ dep.depMap) := by
  have firstLeads := leads.findParent leads.root_output
  have firstRoot := dep.root_findParent output
  have firstKeys (k : Nat) (other : k ≠ output) :
      k ∈ (dep.findParent output).2.depMap <-> k ∈ dep.depMap := by
    constructor
    · intro member
      rcases (dep.findParent_keys output k).2 member with same | inside
      · exact absurd (same.trans leads.root_output) other
      · exact inside
    · exact fun inside => (dep.findParent_keys output k).1 (Or.inr inside)
  have second : ((dep.findParent output).2.findParent child).1 = dep.root child :=
    congrFun firstRoot child
  have first : (dep.findParent output).1 = output := leads.root_output
  by_cases known : dep.root child = output
  · have result : dep.setParent output child = dep.foundBoth output child := by
      unfold Dependency.setParent
      simp [first, second, known]
    rw [result]
    refine ⟨firstLeads.findParent (firstRoot ▸ known), ?_⟩
    intro k other
    have keys := (dep.findParent output).2.findParent_keys child k
    rw [firstRoot, known] at keys
    constructor
    · intro member
      rcases keys.2 member with same | inside
      · exact absurd same other
      · exact Or.inr ((firstKeys k other).mp inside)
    · rintro (same | inside)
      · exact keys.1 (Or.inl same)
      · exact keys.1 (Or.inr ((firstKeys k other).mpr inside))
  · have missing : child ∉ dep.depMap := fun member => known (leads.root_of_mem member)
    have self : dep.root child = child := by
      apply dep.isRoot_root.eq_self
      rw [parentIn, AList.lookup_eq_none.mpr missing, Option.getD_none]
    have result : (dep.setParent output child).depMap =
        (dep.foundBoth output child).depMap.insert child output := by
      unfold Dependency.setParent
      simp [first, second, self, dif_neg (fun equal => known (self.trans (Eq.symm equal)))]
    have keys (k : Nat) := (dep.findParent output).2.findParent_keys child k
    rw [firstRoot, self] at keys
    constructor
    · rintro ⟨k, v⟩ member
      have found := mem_edges.mp member
      rw [result] at found
      by_cases atChild : k = child
      · rw [atChild, AList.lookup_insert] at found
        cases found
        rfl
      · rw [AList.lookup_insert_ne atChild] at found
        rcases (dep.findParent output).2.findParent_value child k v found with old | new
        · exact firstLeads.value old
        · rcases (keys k).2 (mem_of_lookup found) with same | inside
          · exact absurd same atChild
          · exact new.trans (firstLeads.root_of_mem inside)
    · intro k other
      rw [result, AList.mem_insert]
      constructor
      · rintro (same | member)
        · exact Or.inl same
        · exact ((keys k).2 member).imp id (firstKeys k other).mp
      · rintro (same | inside)
        · exact Or.inl same
        · exact Or.inr ((keys k).1 (Or.inr ((firstKeys k other).mpr inside)))

theorem LeadsTo.setParents (order : List (Nat × Nat)) (targets : ∀ edge ∈ order, edge.2 = output) :
    (dep.setParents order).LeadsTo output ∧ ∀ k, k ≠ output ->
        (k ∈ (dep.setParents order).depMap <-> k ∈ order.map Prod.fst ∨ k ∈ dep.depMap) := by
  induction order generalizing dep with
  | nil =>
    refine ⟨leads, fun k _ => ?_⟩
    exact ⟨Or.inr, fun either => either.elim (fun member => by cases member) id⟩
  | cons edge order ih =>
    rcases edge with ⟨child, target⟩
    have same : target = output := targets _ mem_cons_self
    subst same
    rcases leads.setParent child with ⟨nextLeads, nextKeys⟩
    rcases ih nextLeads (fun edge member => targets edge (mem_cons_of_mem _ member)) with
      ⟨finalLeads, finalKeys⟩
    refine ⟨finalLeads, fun k other => ?_⟩
    change k ∈ ((dep.setParent target child).setParents order).depMap <-> _
    rw [finalKeys k other, nextKeys k other, map_cons, mem_cons]
    exact or_left_comm.trans or_assoc.symm

theorem LeadsTo.copy (perm : order.Perm dep.edges) : (empty.setParents order).LeadsTo output ∧
      ∀ k, k ≠ output -> (k ∈ (empty.setParents order).depMap <-> k ∈ dep.depMap) := by
  rcases (leadsTo_empty output).setParents order
    (fun edge member => leads edge (perm.mem_iff.mp member)) with ⟨copied, keys⟩
  refine ⟨copied, fun k other => ?_⟩
  rw [keys k other, (perm.map Prod.fst).mem_iff, map_fst_edges]
  exact ⟨fun either => either.elim id (fun member => absurd member (AList.notMem_empty k)), Or.inl⟩

theorem LeadsTo.root_setParents {base : Dependency} (fixed : base.root output = output)
    (perm : order.Perm dep.edges) :
    (base.setParents order).root = gather base.root output dep.depMap.keys := by
  rw [Dependency.root_setParents, redirectAll_star base.root fixed order
    (fun edge member => leads edge (perm.mem_iff.mp member))]
  apply gather_congr fixed
  intro _ _
  rw [(perm.map Prod.fst).mem_iff, map_fst_edges]

end

inductive Call where
  | findParent (child : Nat)
  | setParent (parent child : Nat)

def call (dep : Dependency) : Call -> Dependency
  | .findParent child => (dep.findParent child).2
  | .setParent parent child => dep.setParent parent child

/-- The map after some calls. -/
def run (calls : List Call) : Dependency := calls.foldl call empty

/-- `SetParent` was called with the two numbers. -/
def SetBy (calls : List Call) (parent child : Nat) : Prop := Call.setParent parent child ∈ calls

variable (calls : List Call)

theorem run_append (last : Call) : run (calls ++ [last]) = (run calls).call last :=
  foldl_append

variable {a b : Nat}

theorem SetBy.mono {calls : List Call} {last : Call}
    (connected : Relation.EqvGen (SetBy calls) a b) :
    Relation.EqvGen (SetBy (calls ++ [last])) a b :=
  connected.mono (fun _ _ made => mem_append_left _ made)

/-- Numbers with one root are connected by the pairs given to `SetParent`. -/
theorem connected_of_root_eq (same : (run calls).root a = (run calls).root b) :
    Relation.EqvGen (SetBy calls) a b := by
  induction calls using reverseRecOn generalizing a b with
  | nil =>
    obtain rfl : a = b := by simpa [run, root_empty] using same
    exact .refl a
  | append_singleton calls last ih =>
    rw [run_append] at same
    cases last with
    | findParent child =>
      simp only [call, root_findParent] at same
      exact SetBy.mono (ih same)
    | setParent parent child =>
      have joined : Relation.EqvGen (SetBy (calls ++ [.setParent parent child])) parent child :=
        .rel _ _ mem_concat_self
      simp only [call, root_setParent, redirect_eq_iff] at same
      rcases same with same | ⟨first, second⟩ | ⟨first, second⟩
      · exact SetBy.mono (ih same)
      · exact ((SetBy.mono (ih first)).trans _ _ _ joined.symm).trans _ _ _ (SetBy.mono (ih second))
      · exact ((SetBy.mono (ih first)).trans _ _ _ joined).trans _ _ _ (SetBy.mono (ih second))

/-- A pair given to `SetParent` has one root ever after. -/
theorem root_eq_of_setBy (made : SetBy calls a b) : (run calls).root a = (run calls).root b := by
  induction calls using reverseRecOn with
  | nil => exact absurd made not_mem_nil
  | append_singleton calls last ih =>
    rw [run_append]
    rcases mem_append.mp made with before | now
    · cases last with
      | findParent child =>
        simpa only [call, root_findParent] using ih before
      | setParent parent child =>
        simpa only [call, root_setParent, redirect_eq_iff] using Or.inl (ih before)
    · obtain rfl := mem_singleton.mp now
      simp [call, root_setParent, redirect_eq_iff]

theorem root_eq_iff_connected (a b : Nat) :
    (run calls).root a = (run calls).root b <-> Relation.EqvGen (SetBy calls) a b := by
  refine ⟨connected_of_root_eq calls, fun connected => ?_⟩
  induction connected with
  | rel a b made => exact root_eq_of_setBy calls made
  | refl a => rfl
  | symm a b _ ih => exact ih.symm
  | trans a b c _ _ first second => exact first.trans second

/-- `Dependency` is a union-find structure after any calls: each call ends, `FindParent`
keeps the classes, these are what the calls of `SetParent` connect, and a joined class has
the root of the parent side. -/
theorem run_is_unionFind (calls : List Call) :
    (forall child, ∃ fuel, (findParentLoop fuel (run calls).depMap child).isSome) ∧
      (∃ root, IsRoot (parentIn (run calls).depMap) root) ∧
      (forall child, ((run calls).findParent child).2.root = (run calls).root) ∧
      (forall child, (run calls).root ((run calls).root child) = (run calls).root child) ∧
      (forall a b, (run calls).root a = (run calls).root b <-> Relation.EqvGen (SetBy calls) a b) ∧
      forall parent child x, ((run calls).setParent parent child).root x =
        if (run calls).root x = (run calls).root parent ∨
            (run calls).root x = (run calls).root child then (run calls).root parent
        else (run calls).root x := by
  refine ⟨fun child => ⟨_, (run calls).findParentLoop_isSome child⟩, (run calls).acyclic,
    (run calls).root_findParent, (run calls).isRoot_root.idem, root_eq_iff_connected calls, ?_⟩
  intro parent _ x
  rw [root_setParent, redirect]
  by_cases under : (run calls).root x = (run calls).root parent <;> simp [under]

end Dependency

end Db
end Doux
