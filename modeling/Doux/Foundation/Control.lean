import Mathlib.Tactic

namespace Doux
namespace Foundation

open List

/-!
# Checked computations and loops

A computation that may stop at a failed assertion is an `Except String`, whose
error is the text of the asserted condition.  A loop is given by its body: one
pass either changes the state and goes round again, or leaves with a result.
`runLoop` bounds the number of passes by a fuel argument, and returns nothing
exactly when the fuel does not suffice.  `Passes body count start finish` says
that `count` passes lead from one state to another, whatever fuel remains, so
loop proofs compose pass counts instead of choosing a fuel in advance.
-/

/-- Stop with the text of the condition unless the condition holds. -/
def assertThat (condition : Prop) [Decidable condition] (text : String) : Except String Unit :=
  if condition then .ok () else .error text

variable {condition : Prop}

theorem assertThat_of [Decidable condition] (holds : condition)
    (text : String) : assertThat condition text = .ok () := by
  unfold assertThat
  rw [if_pos holds]

theorem assertThat_of_not [Decidable condition] (fails : ¬ condition)
    (text : String) : assertThat condition text = .error text := by
  unfold assertThat
  rw [if_neg fails]

universe u v

section Lists
variable {ε α β : Type u} {list : List α} {item : α}

theorem bind_eq_ok {first : Except ε α} {next : α -> Except ε β} {result : β} :
    first >>= next = .ok result <-> ∃ middle, first = .ok middle ∧ next middle = .ok result := by
  cases first with
  | error text => exact ⟨nofun, fun ⟨_, impossible, _⟩ => by cases impossible⟩
  | ok middle => exact ⟨fun equal => ⟨middle, rfl, equal⟩, fun ⟨_, same, equal⟩ => by
      cases same
      exact equal⟩

theorem exists_ok_of_isSome {result : Except ε α}
    (returns : result.toOption.isSome = true) : ∃ value, result = .ok value := by
  cases result with
  | error text => cases returns
  | ok value => exact ⟨value, rfl⟩

theorem eq_ok_of_toOption {result : Except ε α} {value : α}
    (returns : result.toOption = some value) : result = .ok value := by
  cases result with
  | error text => cases returns
  | ok other =>
    cases returns
    rfl

theorem mem_concat {other : α} : other ∈ list ++ [item] <-> other ∈ list ∨ other = item := by
  rw [mem_append, mem_singleton]

theorem forall_mem_concat {holds : α -> Prop} :
    (∀ other ∈ list ++ [item], holds other) <-> (∀ other ∈ list, holds other) ∧ holds item := by
  rw [forall_mem_append, forall_mem_singleton]

theorem pairwise_concat {related : α -> α -> Prop} : (list ++ [item]).Pairwise related <->
      list.Pairwise related ∧ ∀ other ∈ list, related other item := by
  simp [pairwise_append]

variable {visit : β -> α -> Except ε β}

theorem foldlM_concat_eq_ok {start finish : β} :
    (list ++ [item]).foldlM visit start = .ok finish <->
      ∃ middle, list.foldlM visit start = .ok middle ∧ visit middle item = .ok finish := by
  rw [foldlM_append, bind_eq_ok]
  simp only [foldlM_cons, foldlM_nil, bind_pure]

/-- What holds at the start of a checked fold, and is kept by every visit, holds at
its end.  The invariant may speak of the items seen so far. -/
theorem foldlM_invariant (Holds : List α -> β -> Prop)
    (keeps : ∀ seen item state next, Holds seen state -> visit state item = .ok next ->
      Holds (seen ++ [item]) next)
    {seen : List α} {start finish : β} (holds : Holds seen start)
    (run : list.foldlM visit start = .ok finish) : Holds (seen ++ list) finish := by
  induction list generalizing seen start with
  | nil =>
    cases run
    rw [append_nil]
    exact holds
  | cons item list ih =>
    rcases bind_eq_ok.mp run with ⟨next, visited, rest⟩
    have later := ih (keeps seen item start next holds visited) rest
    rw [append_assoc] at later
    exact later

/-- The invariant rule for an invariant that speaks of the state only. -/
theorem foldlM_preserves (Holds : β -> Prop) (keeps : ∀ item ∈ list, ∀ state next, Holds state ->
      visit state item = .ok next -> Holds next) {start finish : β} (holds : Holds start)
    (run : list.foldlM visit start = .ok finish) : Holds finish := by
  refine foldlM_invariant (fun seen state => seen ⊆ list -> Holds state) ?_
    (fun _ : [] ⊆ list => holds) run (Subset.refl _)
  intro seen item state next before visited inside
  rcases append_subset.mp inside with ⟨earlier, last⟩
  exact keeps item (last mem_cons_self) state next (before earlier) visited

/-- Two checked folds over one list whose states stay related: every visit succeeds
on both sides and keeps the relation, or fails on both sides. -/
theorem foldlM_simulation {δ γ : Type u} {step : γ -> α -> Except δ γ} (Related : β -> γ -> Prop)
    (visits : ∀ state model item, Related state model ->
      (∃ next after, visit state item = .ok next ∧ step model item = .ok after ∧
        Related next after) ∨
      (∃ text reason, visit state item = .error text ∧ step model item = .error reason))
    (list : List α) {start : β} {model : γ} (related : Related start model) :
    (∃ finish last, list.foldlM visit start = .ok finish ∧
      list.foldlM step model = .ok last ∧ Related finish last) ∨
    (∃ text reason, list.foldlM visit start = .error text ∧
      list.foldlM step model = .error reason) := by
  induction list generalizing start model with
  | nil => exact Or.inl ⟨start, model, rfl, rfl, related⟩
  | cons item list ih =>
    simp only [foldlM_cons]
    rcases visits start model item related with
      ⟨next, after, visited, stepped, kept⟩ | ⟨text, reason, visited, stepped⟩
    · rw [visited, stepped]
      exact ih kept
    · rw [visited, stepped]
      exact Or.inr ⟨text, reason, rfl, rfl⟩

theorem assertThat_bind_eq_ok [Decidable condition] {text : String} {α : Type}
    {next : Unit -> Except String α} {result : α} :
    assertThat condition text >>= next = .ok result <-> condition ∧ next () = .ok result := by
  by_cases holds : condition
  · rw [assertThat_of holds]
    exact ⟨fun equal => ⟨holds, equal⟩, fun both => both.2⟩
  · rw [assertThat_of_not holds]
    exact ⟨nofun, fun both => absurd both.1 holds⟩

theorem assertThat_return_eq_ok [Decidable condition] {text : String} {α : Type}
    {value result : α} : (do assertThat condition text; return value) = Except.ok result <->
      condition ∧ result = value := by
  rw [assertThat_bind_eq_ok]
  exact and_congr_right
    fun _ => ⟨fun same => (Except.ok.inj same).symm, fun same => by rw [same]; rfl⟩

/-- A count as the variant of a loop: it decreases when one item no longer counts. -/
theorem countP_lt_countP {p q : α -> Bool} (member : item ∈ list)
    (weaker : ∀ a, p a = true -> q a = true)
    (fails : ¬ p item = true) (holds : q item = true) : list.countP p < list.countP q := by
  rw [countP_eq_countP_filter_add list q p]
  have same : (list.filter p).countP q = list.countP p := by
    rw [countP_filter]
    exact countP_congr (fun a _ => by simpa using weaker a)
  have lost : 0 < (list.filter (fun a => !p a)).countP q :=
    countP_pos_iff.mpr ⟨item, mem_filter.mpr ⟨member, by simpa using fails⟩, holds⟩
  omega

/-- A `mapM` returns the results of the items, in their order. -/
theorem mapM_eq_ok_iff_forall₂ {compute : α -> Except ε β} {results : List β} :
    list.mapM compute = .ok results <->
      Forall₂ (fun item result => compute item = .ok result) list results := by
  induction list generalizing results with
  | nil =>
    rw [forall₂_nil_left_iff]
    exact ⟨fun same => (Except.ok.inj same).symm, fun same => congrArg Except.ok same.symm⟩
  | cons item list ih =>
    rw [mapM_cons]
    constructor
    · intro mapped
      rcases bind_eq_ok.mp mapped with ⟨_, computed, rest⟩
      rcases bind_eq_ok.mp rest with ⟨others, mappedRest, same⟩
      cases same
      exact .cons computed (ih.mp mappedRest)
    · intro all
      cases all with
      | cons computed others =>
        exact bind_eq_ok.mpr ⟨_, computed, bind_eq_ok.mpr ⟨_, ih.mpr others, rfl⟩⟩

/-- A checked computation over a list succeeds exactly when it does for every
element. -/
theorem mapM_eq_ok {compute : α -> Except ε β} {value : α -> β}
    {condition : α -> Prop} (each : ∀ item result, compute item = .ok result <->
      result = value item ∧ condition item) (list : List α) (results : List β) :
    list.mapM compute = .ok results <->
      results = list.map value ∧ ∀ item ∈ list, condition item := by
  have swapped : (fun item result => compute item = .ok result) =
      fun item result => condition item ∧ value item = result := by
    funext item result
    rw [each, and_comm, eq_comm (a := result)]
  rw [mapM_eq_ok_iff_forall₂, swapped, forall₂_and_left, <- forall₂_map_left_iff, forall₂_eq_eq_eq,
    and_comm, eq_comm]

/-- A checked computation over a list succeeds if it does for every element. -/
theorem exists_mapM {compute : α -> Except ε β} {Result : α -> β -> Prop}
    (each : ∀ item ∈ list, ∃ result, compute item = .ok result ∧ Result item result) :
    ∃ results, list.mapM compute = .ok results ∧ Forall₂ Result list results := by
  induction list with
  | nil => exact ⟨[], rfl, .nil⟩
  | cons item list ih =>
    rcases each item mem_cons_self with ⟨result, computed, holds⟩
    rcases ih (fun other member => each other (mem_cons_of_mem item member)) with
      ⟨results, all, hold⟩
    refine ⟨result :: results, ?_, .cons holds hold⟩
    rw [mapM_cons, computed, all]
    rfl

end Lists

section
variable {α β γ : Type u}

/-- Two lists of the same length whose elements are related at every place. -/
structure Aligned (Related : Nat -> β -> α -> Prop) (models : List β) (items : List α) : Prop where
  length : items.length = models.length
  related : forall index model item, models[index]? = some model -> items[index]? = some item ->
    Related index model item

namespace Aligned

variable {Related Next : Nat -> β -> α -> Prop} {models : List β} {items : List α}
variable (aligned : Aligned Related models items)
include aligned

theorem imp
    (implies : ∀ index model item, models[index]? = some model -> Related index model item ->
      Next index model item) : Aligned Next models items :=
  ⟨aligned.length, fun index model item here there =>
    implies index model item here (aligned.related index model item here there)⟩

theorem exists_item {index : Nat} {model : β} (here : models[index]? = some model) :
    ∃ item, items[index]? = some item ∧ Related index model item := by
  have inside := (List.getElem?_eq_some_iff.mp here).1
  have there := getElem?_eq_getElem (aligned.length ▸ inside : index < items.length)
  exact ⟨_, there, aligned.related index model _ here there⟩

theorem exists_model {index : Nat} {item : α} (there : items[index]? = some item) :
    ∃ model, models[index]? = some model ∧ Related index model item := by
  have inside := (List.getElem?_eq_some_iff.mp there).1
  have here := getElem?_eq_getElem (aligned.length ▸ inside : index < models.length)
  exact ⟨_, here, aligned.related index _ item here there⟩

theorem set {place : Nat} {replacement : α}
    (other : ∀ index model item, models[index]? = some model -> index ≠ place ->
      Related index model item -> Next index model item)
    (new : ∀ model, models[place]? = some model -> Next place model replacement) :
    Aligned Next models (items.set place replacement) := by
  refine ⟨by simp [aligned.length], fun index model item here there => ?_⟩
  by_cases same : index = place
  · subst same
    have inside := (List.getElem?_eq_some_iff.mp here).1
    rw [getElem?_set_self (aligned.length ▸ inside)] at there
    cases there
    exact new model here
  · rw [getElem?_set_ne (Ne.symm same)] at there
    exact other index model item here same (aligned.related index model item here there)

theorem mapM {ε : Type u} {After : Nat -> β -> γ -> Prop} (update : α × Nat -> Except ε γ)
    (each : ∀ index model item, models[index]? = some model -> Related index model item ->
      ∃ next, update (item, index) = .ok next ∧ After index model next) :
    ∃ next, items.zipIdx.mapM update = .ok next ∧ Aligned After models next := by
  have steps : ∀ pair ∈ items.zipIdx, ∃ next, update pair = .ok next ∧
      ∀ model, models[pair.2]? = some model -> After pair.2 model next := by
    rintro ⟨item, index⟩ member
    have there := mem_zipIdx_iff_getElem?.mp member
    rcases aligned.exists_model there with ⟨model, here, related⟩
    rcases each index model item here related with ⟨next, updated, holds⟩
    refine ⟨next, updated, fun other otherHere => ?_⟩
    cases here.symm.trans otherHere
    exact holds
  rcases exists_mapM steps with ⟨next, mapped, results⟩
  refine ⟨next, mapped, ?_, fun index model item here there => ?_⟩
  · rw [<- results.length_eq, length_zipIdx, aligned.length]
  · have inside := (List.getElem?_eq_some_iff.mp here).1
    rcases List.getElem?_eq_some_iff.mp there with ⟨within, rfl⟩
    have zipped : index < items.zipIdx.length := by
      rw [length_zipIdx, aligned.length]
      exact inside
    have result := results.get zipped within
    simp only [get_eq_getElem, getElem_zipIdx, zero_add] at result
    exact result model here

end Aligned

end

/-- The outcome of one pass through a loop body. -/
inductive LoopStep (σ : Type u) (ρ : Type v) where
  | again (state : σ)
  | done (result : ρ)
deriving DecidableEq

section
variable {σ : Type u} {ρ : Type v} (body : σ -> LoopStep σ ρ)

/-- Run the body until it leaves the loop, at most `fuel` times. -/
def runLoop : Nat -> σ -> Option ρ
  | 0, _ => none
  | fuel + 1, state =>
    match body state with
    | .again next => runLoop fuel next
    | .done result => some result

/-- The state in which a loop is left, and what every pass before it keeps. -/
theorem runLoop_preserves (Holds : σ -> Prop)
    (keeps : ∀ state next, Holds state -> body state = .again next -> Holds next)
    {fuel : Nat} {start : σ} {result : ρ} (holds : Holds start)
    (run : runLoop body fuel start = some result) :
    ∃ last, Holds last ∧ body last = .done result := by
  induction fuel generalizing start with
  | zero => cases run
  | succ fuel ih =>
    unfold runLoop at run
    cases pass : body start with
    | again next =>
      rw [pass] at run
      exact ih (keeps start next holds pass) run
    | done returned =>
      rw [pass] at run
      cases run
      exact ⟨start, holds, pass⟩

/-- `count` passes lead from `start` to `finish`. -/
def Passes (count : Nat) (start finish : σ) : Prop :=
  forall fuel, runLoop body (count + fuel) start = runLoop body fuel finish

variable {body}

theorem Passes.zero (state : σ) : Passes body 0 state state := by
  intro _
  rw [zero_add]

theorem Passes.one {start finish : σ} (pass : body start = .again finish) :
    Passes body 1 start finish := by
  intro _
  rw [add_comm, runLoop, pass]

theorem Passes.trans {count further : Nat} {start middle finish : σ}
    (first : Passes body count start middle) (second : Passes body further middle finish) :
    Passes body (count + further) start finish := by
  intro fuel
  rw [add_assoc, first, second]

/-- A loop that leaves after the given passes returns with any larger fuel. -/
theorem Passes.returns {count fuel : Nat} {start finish : σ} {result : ρ}
    (passes : Passes body count start finish) (leaves : body finish = .done result)
    (enough : count < fuel) : runLoop body fuel start = some result := by
  have split : fuel = count + ((fuel - count - 1) + 1) := by omega
  rw [split, passes, runLoop, leaves]

end

section Updates
variable {κ β : Type} [DecidableEq κ]

/-- A fold that updates one place at a time, as one place sees it. -/
theorem foldl_update_apply {α : Type} (visit : β -> α -> β) (table : κ -> β)
    (items : List (κ × α)) (key : κ) : items.foldl (fun table item =>
        Function.update table item.1 (visit (table item.1) item.2)) table key =
      ((items.filter (fun item => item.1 = key)).map Prod.snd).foldl visit (table key) := by
  induction items generalizing table with
  | nil => rfl
  | cons item items ih =>
    rw [foldl_cons, ih]
    by_cases here : item.1 = key
    · subst here
      simp
    · simp [here, Function.update_of_ne (Ne.symm here)]

theorem foldl_update_of_not_mem (table : κ -> β) {updates : List (κ × β)} {key : κ}
    (unused : key ∉ updates.map Prod.fst) :
    updates.foldl (fun table entry => Function.update table entry.1 entry.2) table key =
      table key := by
  induction updates generalizing table with
  | nil => rfl
  | cons entry updates ih =>
    rw [map_cons, mem_cons, not_or] at unused
    rw [foldl_cons, ih _ unused.2, Function.update_of_ne unused.1]

theorem foldl_update_of_mem (table : κ -> β) {updates : List (κ × β)}
    (distinct : (updates.map Prod.fst).Nodup) {entry : κ × β} (member : entry ∈ updates) :
    updates.foldl (fun table entry => Function.update table entry.1 entry.2) table entry.1 =
      entry.2 := by
  induction updates generalizing table with
  | nil => cases member
  | cons head updates ih =>
    rw [map_cons, nodup_cons] at distinct
    rw [foldl_cons]
    rcases mem_cons.mp member with rfl | inRest
    · rw [foldl_update_of_not_mem _ distinct.1, Function.update_self]
    · exact ih _ distinct.2 inRest

end Updates

end Foundation
end Doux
