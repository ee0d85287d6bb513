import Mathlib.Tactic

namespace Doux
namespace Foundation

open List

universe u

/-!
# Forests and their roots

A forest is given by a parent function; a root is its own parent.  `Path`
follows parents up to a root, and `IsRoot` says that every element has such a
path, so that the parent function has no cycle.  Redirecting one element to a
root, whether to shorten a path or to join two trees, changes roots as
`redirect` says.

Joining along a list of edges is order-dependent in general.  Two cases are
not: the edges of a forest, joined from nothing, rebuild its roots in any
order; and edges that all lead to one root gather the trees of their sources
under that root.
-/

section
variable {α : Type u}

/-- The given number of parent steps lead from an element to a root. -/
inductive Path (parent : α -> α) : Nat -> α -> α -> Prop
  | root {x : α} (fixed : parent x = x) : Path parent 0 x x
  | step {count : Nat} {x r : α} (moves : parent x ≠ x) (rest : Path parent count (parent x) r) :
      Path parent (count + 1) x r

/-- `root` gives the root of every element. -/
def IsRoot (parent root : α -> α) : Prop :=
  forall x, ∃ count, Path parent count x (root x)

variable {parent : α -> α}

section
variable {count : Nat} {x r : α} (path : Path parent count x r)
include path

theorem Path.fixed : parent r = r := by
  induction path with
  | root fixed => exact fixed
  | step _ _ ih => exact ih

theorem Path.unique {other : Nat} {s : α} (second : Path parent other x s) :
    count = other ∧ r = s := by
  induction path generalizing other with
  | root fixed =>
    cases second with
    | root _ => exact ⟨rfl, rfl⟩
    | step moves _ => exact absurd fixed moves
  | step moves _ ih =>
    cases second with
    | root fixed => exact absurd fixed moves
    | step _ rest =>
      rcases ih rest with ⟨counts, roots⟩
      exact ⟨by rw [counts], roots⟩

theorem Path.tail (moves : parent x ≠ x) :
    ∃ shorter, count = shorter + 1 ∧ Path parent shorter (parent x) r := by
  cases path with
  | root fixed => exact absurd fixed moves
  | step _ rest => exact ⟨_, rfl, rest⟩

/-- The elements of a path before its root are distinct and no roots. -/
theorem Path.nodes : ∃ nodes : List α, nodes.length = count ∧ nodes.Nodup ∧
      ∀ y ∈ nodes, parent y ≠ y ∧ ∃ depth, depth ≤ count ∧ Path parent depth y r := by
  induction path with
  | root _ => exact ⟨[], rfl, nodup_nil, fun _ member => by cases member⟩
  | @step count x r moves rest ih =>
    rcases ih with ⟨nodes, length, nodup, deeper⟩
    refine ⟨x :: nodes, by rw [length_cons, length], nodup_cons.mpr ⟨?_, nodup⟩, ?_⟩
    · intro member
      rcases (deeper x member).2 with ⟨depth, bound, path⟩
      have same := ((Path.step moves rest).unique path).1
      omega
    · intro y member
      rcases mem_cons.mp member with head | tail
      · rw [head]
        exact ⟨moves, count + 1, le_refl _, Path.step moves rest⟩
      · rcases deeper y tail with ⟨moves, depth, _, path⟩
        exact ⟨moves, depth, by omega, path⟩

/-- A path is no longer than the list of all elements that are not roots. -/
theorem Path.count_le {keys : List α} (support : ∀ y, parent y ≠ y -> y ∈ keys) :
    count ≤ keys.length := by
  rcases path.nodes with ⟨_, length, nodup, deeper⟩
  rw [<- length]
  exact (subperm_of_subset nodup (fun y member => support y (deeper y member).1)).length_le

end

variable {root : α -> α}

theorem IsRoot.unique {other : α -> α} (first : IsRoot parent root)
    (second : IsRoot parent other) : root = other := by
  funext x
  rcases first x with ⟨_, path⟩
  rcases second x with ⟨_, path'⟩
  exact (path.unique path').2

section
variable (roots : IsRoot parent root)
include roots

theorem IsRoot.fixed (x : α) : parent (root x) = root x := by
  rcases roots x with ⟨_, path⟩
  exact path.fixed

theorem IsRoot.eq_self {x : α} (fixed : parent x = x) : root x = x := by
  rcases roots x with ⟨_, path⟩
  exact (path.unique (Path.root fixed)).2

theorem IsRoot.idem (x : α) : root (root x) = root x :=
  roots.eq_self (roots.fixed x)

theorem IsRoot.parent_eq (x : α) : root (parent x) = root x := by
  by_cases fixed : parent x = x
  · rw [fixed]
  · rcases roots (parent x) with ⟨_, path⟩
    rcases roots x with ⟨_, path'⟩
    exact ((Path.step fixed path).unique path').2

end

theorem isRoot_id : IsRoot (fun x : α => x) (fun x => x) :=
  fun _ => ⟨0, Path.root rfl⟩

variable [DecidableEq α]

/-- The roots after the tree of `child` has been put under the root of `target`. -/
def redirect (root : α -> α) (target child : α) : α -> α :=
  fun x => if root x = root child then root target else root x

/-- An element that is a root, or has the root `r`, gets `r` as its parent. -/
theorem IsRoot.update (roots : IsRoot parent root) {c r : α} (fixed : parent r = r)
    (distinct : r ≠ c) (position : root c = c ∨ root c = r) :
    IsRoot (Function.update parent c r) (redirect root r c) := by
  have rootOf : root r = r := roots.eq_self fixed
  have fixedNow : Function.update parent c r r = r := by
    rw [Function.update_of_ne distinct, fixed]
  have moved : ∃ count, Path (Function.update parent c r) count c r := by
    refine ⟨1, Path.step ?_ ?_⟩
    · rw [Function.update_self]
      exact distinct
    · rw [Function.update_self]
      exact Path.root fixedNow
  have walk : ∀ count x s, Path parent count x s -> root x = s ->
      ∃ steps, Path (Function.update parent c r) steps x (redirect root r c x) := by
    intro count x s path
    induction path with
    | @root x fixedX =>
      intro _
      have rootX : root x = x := roots.eq_self fixedX
      by_cases atC : x = c
      · rw [atC]
        unfold redirect
        rw [if_pos rfl, rootOf]
        exact moved
      · refine ⟨0, ?_⟩
        have value : redirect root r c x = x := by
          unfold redirect
          rw [rootX, rootOf]
          rcases position with here | there
          · rw [here, if_neg atC]
          · rw [there]
            by_cases same : x = r
            · rw [if_pos same, same]
            · rw [if_neg same]
        rw [value]
        apply Path.root
        rw [Function.update_of_ne atC, fixedX]
    | @step count x s moves _ ih =>
      intro rootX
      have next : root (parent x) = root x := roots.parent_eq x
      by_cases atC : x = c
      · rw [atC]
        unfold redirect
        rw [if_pos rfl, rootOf]
        exact moved
      · rcases ih (next.trans rootX) with ⟨steps, path⟩
        have same : redirect root r c (parent x) = redirect root r c x := by
          unfold redirect
          rw [next]
        rw [same] at path
        refine ⟨steps + 1, Path.step ?_ ?_⟩
        · rw [Function.update_of_ne atC]
          exact moves
        · rw [Function.update_of_ne atC]
          exact path
  intro x
  rcases roots x with ⟨count, path⟩
  exact walk count x (root x) path rfl

/-- Join along edges, each given by its source and its target. -/
def redirectAll (root : α -> α) (edges : List (α × α)) : α -> α :=
  edges.foldl (fun root edge => redirect root edge.2 edge.1) root

/-- Elements that have one root after a redirection. -/
theorem redirect_eq_iff {root : α -> α} {target child a b : α} :
    redirect root target child a = redirect root target child b <->
      root a = root b ∨ root a = root child ∧ root target = root b ∨
        root a = root target ∧ root child = root b := by
  unfold redirect
  split_ifs with first second second <;> grind

theorem redirect_self (root : α -> α) (x : α) : redirect root x x = root := by
  funext y
  unfold redirect
  by_cases same : root y = root x
  · rw [if_pos same, same]
  · rw [if_neg same]

/-- What holds while the edges of a forest with the roots `final` are joined:
sources still to come are roots, joined sources are none, and the present root
of an element lies on its path in the forest. -/
structure Rebuilding (parent final : α -> α) (depth : α -> Nat) (todo : List (α × α))
    (root : α -> α) : Prop where
  pending : ∀ edge ∈ todo, root edge.1 = edge.1
  joined : forall c, parent c ≠ c -> c ∉ todo.map Prod.fst -> forall x, root x ≠ c
  sameTree : forall x, final (root x) = final x
  shallower : forall x, depth (root x) ≤ depth x

theorem Rebuilding.step {final : α -> α} {depth : α -> Nat} {edge : α × α}
    {todo : List (α × α)} {current : α -> α} (roots : IsRoot parent final)
    (deeper : ∀ c, parent c ≠ c -> depth (parent c) < depth c)
    (isEdge : parent edge.1 = edge.2) (nodup : ((edge :: todo).map Prod.fst).Nodup)
    (state : Rebuilding parent final depth (edge :: todo) current) :
    Rebuilding parent final depth todo (redirect current edge.2 edge.1) := by
  rcases edge with ⟨c, p⟩
  simp only at isEdge ⊢
  have fresh : c ∉ todo.map Prod.fst := (nodup_cons.mp nodup).1
  have here : current c = c := state.pending (c, p) mem_cons_self
  by_cases loop : parent c = c
  · have same : p = c := isEdge.symm.trans loop
    rw [same, redirect_self]
    refine ⟨fun edge member => state.pending edge (mem_cons_of_mem _ member), ?_,
      state.sameTree, state.shallower⟩
    intro d moves outside
    apply state.joined d moves
    rw [map_cons, mem_cons, not_or]
    exact ⟨fun equal => moves (equal ▸ loop), outside⟩
  · have above : depth p < depth c := isEdge ▸ deeper c loop
    have otherRoot : current p ≠ c := by
      intro equal
      have bound := state.shallower p
      rw [equal] at bound
      omega
    have value (x : α) : redirect current p c x = if current x = c then current p
        else current x := by
      unfold redirect
      rw [here]
    refine ⟨?_, ?_, ?_, ?_⟩
    · intro edge member
      have still := state.pending edge (mem_cons_of_mem _ member)
      have distinct : edge.1 ≠ c := fun equal =>
        fresh (equal ▸ mem_map_of_mem member)
      rw [value, still, if_neg distinct]
    · intro d moves outside x equal
      rw [value] at equal
      by_cases atC : d = c
      · rw [atC] at equal
        split at equal
        · exact otherRoot equal
        · contradiction
      · have old := state.joined d moves (by
          rw [map_cons, mem_cons, not_or]
          exact ⟨atC, outside⟩)
        split at equal
        · exact old p equal
        · exact old x equal
    · intro x
      rw [value]
      split
      · next equal =>
          rw [state.sameTree p, <- isEdge, roots.parent_eq, <- state.sameTree x, equal]
      · exact state.sameTree x
    · intro x
      rw [value]
      split
      · next equal =>
          have first := state.shallower p
          have second := state.shallower x
          rw [equal] at second
          omega
      · exact state.shallower x

/-- The edges of a forest, joined in any order, rebuild its roots. -/
theorem redirectAll_edges {final : α -> α} (roots : IsRoot parent final)
    {edges : List (α × α)} (nodup : (edges.map Prod.fst).Nodup)
    (areEdges : ∀ edge ∈ edges, parent edge.1 = edge.2)
    (support : ∀ c, parent c ≠ c -> c ∈ edges.map Prod.fst) :
    redirectAll (fun x => x) edges = final := by
  choose depth paths using roots
  have deeper : ∀ c, parent c ≠ c -> depth (parent c) < depth c := by
    intro c moves
    have longer := ((Path.step moves (paths (parent c))).unique (paths c)).1
    omega
  have run : ∀ todo current, (todo.map Prod.fst).Nodup -> (∀ edge ∈ todo, parent edge.1 = edge.2) ->
      Rebuilding parent final depth todo current ->
      Rebuilding parent final depth [] (redirectAll current todo) := by
    intro todo
    induction todo with
    | nil =>
      intro current _ _ state
      exact state
    | cons edge todo ih =>
      intro _ nodup areEdges state
      exact ih _ (nodup_cons.mp nodup).2
        (fun other member => areEdges other (mem_cons_of_mem _ member))
        (state.step (fun x => ⟨depth x, paths x⟩) deeper (areEdges edge mem_cons_self) nodup)
  have start : Rebuilding parent final depth edges (fun x => x) :=
    ⟨fun _ _ => rfl, fun c moves outside => absurd (support c moves) outside, fun _ => rfl,
      fun _ => le_refl _⟩
  have finish := run edges _ nodup areEdges start
  have roots : IsRoot parent final := fun x => ⟨depth x, paths x⟩
  funext x
  have fixed : parent (redirectAll (fun x => x) edges x) = redirectAll (fun x => x) edges x := by
    by_contra moves
    exact finish.joined _ moves (by simp) x rfl
  rw [<- finish.sameTree x, roots.eq_self fixed]

/-- The trees of some sources, gathered under one root. -/
def gather (root : α -> α) (o : α) (sources : List α) : α -> α :=
  fun x => if ∃ c ∈ sources, root x = root c then o else root x

theorem gather_congr {root : α -> α} {o : α} (fixed : root o = o) {first second : List α}
    (same : ∀ c, c ≠ o -> (c ∈ first <-> c ∈ second)) :
    gather root o first = gather root o second := by
  have one (first second : List α) (same : ∀ c, c ≠ o -> (c ∈ first <-> c ∈ second)) (x : α)
      (hit : ∃ c ∈ first, root x = root c) : gather root o first x = gather root o second x := by
    unfold gather
    rw [if_pos hit]
    rcases hit with ⟨c, member, equal⟩
    by_cases atO : c = o
    · rw [equal, atO, fixed, ite_self]
    · rw [if_pos ⟨c, (same c atO).mp member, equal⟩]
  funext x
  by_cases hit : ∃ c ∈ first, root x = root c
  · exact one first second same x hit
  · by_cases other : ∃ c ∈ second, root x = root c
    · exact (one second first (fun c distinct => (same c distinct).symm) x other).symm
    · unfold gather
      rw [if_neg hit, if_neg other]

/-- Edges to one root gather the trees of their sources under it. -/
theorem redirectAll_star (root : α -> α) {o : α} (fixed : root o = o) (edges : List (α × α))
    (targets : ∀ edge ∈ edges, edge.2 = o) :
    redirectAll root edges = gather root o (edges.map Prod.fst) := by
  induction edges generalizing root with
  | nil =>
    funext x
    simp [redirectAll, gather]
  | cons edge edges ih =>
    rcases edge with ⟨c, p⟩
    have target : p = o := targets (c, p) mem_cons_self
    subst target
    have still : redirect root p c p = p := by
      unfold redirect
      rw [fixed, ite_self]
    have later := ih (redirect root p c) still
      (fun edge member => targets edge (mem_cons_of_mem _ member))
    funext x
    change redirectAll (redirect root p c) edges x = _
    rw [later, map_cons]
    unfold gather
    by_cases same : root x = root c
    · have value : redirect root p c x = p := by
        unfold redirect
        rw [if_pos same, fixed]
      rw [value, ite_self, if_pos ⟨c, mem_cons_self, same⟩]
    · have kept (y : α) (other : root y ≠ root c) : redirect root p c y = root y := by
        unfold redirect
        rw [if_neg other]
      rw [kept x same]
      by_cases hit : ∃ d ∈ edges.map Prod.fst, root x = root d
      · rcases hit with ⟨d, member, equal⟩
        have keptD := kept d (equal ▸ same)
        rw [if_pos ⟨d, member, equal.trans keptD.symm⟩, if_pos ⟨d, mem_cons_of_mem _ member, equal⟩]
      · have miss : ¬ ∃ d ∈ c :: edges.map Prod.fst, root x = root d := by
          rintro ⟨d, member, equal⟩
          rcases mem_cons.mp member with head | tail
          · exact same (head ▸ equal)
          · exact hit ⟨d, tail, equal⟩
        split
        · next gathered =>
            rcases gathered with ⟨d, member, equal⟩
            by_cases otherD : root d = root c
            · unfold redirect at equal
              rw [if_pos otherD, fixed] at equal
              exact equal.symm
            · rw [kept d otherD] at equal
              exact absurd ⟨d, member, equal⟩ hit
        · rfl

end

end Foundation
end Doux
