import Mathlib.Tactic

namespace Doux
namespace Foundation

/-!
# Pre- and postconditions

A computation works on a state and may stop.  `Meets` is a triple for it: started in a
state with the precondition it returns with the postcondition, or it stops for a reason
that is allowed.  The rules follow the way computations are put together.
-/

/-- A computation on a state that may stop. -/
abbrev Checked (ε σ α : Type) := StateT σ (Except ε) α

section
variable {ε σ α β : Type} {allowed : ε -> Prop} {pre : σ -> Prop} {post : α -> σ -> Prop}

/-- From every state with the precondition the computation returns with the
postcondition, or it stops for an allowed reason. -/
def Meets (allowed : ε -> Prop) (pre : σ -> Prop) (work : Checked ε σ α)
    (post : α -> σ -> Prop) : Prop :=
  forall state, pre state -> (∃ value next, work state = .ok (value, next) ∧ post value next) ∨
      ∃ reason, work state = .error reason ∧ allowed reason

namespace Meets

theorem pure {value : α} (holds : ∀ state, pre state -> post value state) :
    Meets allowed pre (Pure.pure value : Checked ε σ α) post :=
  fun state before => Or.inl ⟨value, state, rfl, holds state before⟩

theorem throw {reason : ε} (isAllowed : allowed reason) :
    Meets allowed pre (MonadExcept.throw reason : Checked ε σ α) post :=
  fun _ _ => Or.inr ⟨reason, rfl, isAllowed⟩

variable {work : Checked ε σ α}

theorem bind {middle : α -> σ -> Prop} {last : β -> σ -> Prop}
    {next : α -> Checked ε σ β} (first : Meets allowed pre work middle)
    (second : ∀ value, Meets allowed (middle value) (next value) last) :
    Meets allowed pre (work >>= next) last := by
  intro state before
  rcases first state before with ⟨value, between, returns, holds⟩ | ⟨reason, stops, isAllowed⟩
  · have same : (work >>= next) state = next value between := by
      change (work state >>= fun result => next result.1 result.2) = _
      rw [returns]
      rfl
    rw [same]
    exact second value between holds
  · refine Or.inr ⟨reason, ?_, isAllowed⟩
    change (work state >>= fun result => next result.1 result.2) = _
    rw [stops]
    rfl

/-- A stronger precondition and a weaker postcondition. -/
theorem imp {stronger : σ -> Prop} {weaker : α -> σ -> Prop}
    (meets : Meets allowed pre work post) (before : ∀ state, stronger state -> pre state)
    (after : ∀ value state, post value state -> weaker value state) :
    Meets allowed stronger work weaker := by
  intro state holds
  rcases meets state (before state holds) with ⟨value, next, returns, done⟩ | stops
  · exact Or.inl ⟨value, next, returns, after value next done⟩
  · exact Or.inr stops

theorem ite {condition : Prop} [Decidable condition] {yes no : Checked ε σ α}
    (whenYes : condition -> Meets allowed pre yes post)
    (whenNo : ¬ condition -> Meets allowed pre no post) :
    Meets allowed pre (if condition then yes else no) post := by
  by_cases holds : condition
  · rw [if_pos holds]
    exact whenYes holds
  · rw [if_neg holds]
    exact whenNo holds

/-- What is known of the state and does not depend on it. -/
theorem of_and {fact : Prop} (meets : fact -> Meets allowed pre work post) :
    Meets allowed (fun state => pre state ∧ fact) work post :=
  fun state holds => meets holds.2 state holds.1

end Meets

end

end Foundation
end Doux
