import BranchingTime.Model.Builder

/-!
# BranchingTime — calls that change a builder in place

A call that changes a builder step by step could leave it half changed when it
fails. None does: whatever a call checks comes before its first change, and the
one check that is a change itself, taking the identifier of a transition into
use, changes nothing when it fails.

## Results

* `Edit.run_ofCall` — a call in place does what the call says, or nothing.
* `attempt_eq` — so a builder that stays in use is the one before a refused call.
-/

namespace BranchingTime.Model.Builder

namespace Edit

/-- The end of a program that does what a call says, or leaves the builder `b` as
it is. -/
def allOrNothing (b : Builder) :
    Except ModelError Builder → EStateM.Result ModelError Builder Unit
  | .ok b' => .ok () b'
  | .error e => .error e b

variable (b : Builder)

theorem run_placeOf (id : StateId) (undeclared : ModelError) :
    (placeOf id undeclared).run b =
      match b.index.lookup id with
      | some place => .ok place b
      | none => .error undeclared b := by
  cases hPlace : b.index.lookup id with
  | some place => simp [placeOf, hPlace]
  | none =>
    simp only [placeOf, EStateM.run_bind, EStateM.run_get, hPlace]
    rfl

theorem run_insertTransitionId (id : TransitionId) :
    (insertTransitionId id).run b =
      if b.transitionIds.contains id then .ok false b
      else .ok true { b with transitionIds := id :: b.transitionIds } := by
  simp only [insertTransitionId, EStateM.run_modifyGet]
  split <;> rfl

theorem run_addState (id : StateId) :
    (addState id).run b = allOrNothing b (b.addState id) := by
  cases hPlace : b.index.lookup id with
  | some place => simp [addState, Builder.addState, allOrNothing, hPlace]
  | none => simp [addState, Builder.addState, allOrNothing, hPlace]

theorem run_addTransition (t : Transition) :
    (addTransition t).run b = allOrNothing b (b.addTransition t) := by
  simp only [addTransition, Builder.addTransition, EStateM.run_bind, run_placeOf]
  cases hSource : b.index.lookup t.source with
  | none => rfl
  | some origin =>
    cases hTarget : b.index.lookup t.target with
    | none => simp [allOrNothing, hTarget]
    | some place =>
      cases hEdge : b.edges.lookup (t.source, t.target) with
      | some existing => simp [allOrNothing, hTarget, hEdge]
      | none =>
        -- the identifier is put to those in use only if it is not among them
        by_cases hId : t.id ∈ b.transitionIds
        · simp [allOrNothing, EStateM.run_bind, run_insertTransitionId, hTarget, hEdge, hId]
        · simp [allOrNothing, EStateM.run_bind, run_insertTransitionId, hTarget, hEdge, hId]

theorem run_addLabel (id : StateId) (label : String) :
    (addLabel id label).run b = allOrNothing b (b.addLabel id label) := by
  simp only [addLabel, Builder.addLabel, EStateM.run_bind, run_placeOf]
  cases hPlace : b.index.lookup id with
  | none => rfl
  | some place =>
    cases hHas : b.states[place]?.any (·.hasLabel label) with
    | true => simp [allOrNothing, hHas]
    | false => simp [allOrNothing, hHas]

/-- A call in place does what the call says, or nothing. -/
theorem run_ofCall (c : Call) : (ofCall c).run b = allOrNothing b (b.call c) := by
  cases c with
  | state id => exact run_addState b id
  | transition t => exact run_addTransition b t
  | label id label => exact run_addLabel b id label

end Edit

/-- A refused call leaves the builder as it was. -/
theorem attempt_eq (b : Builder) (c : Call) :
    b.attempt c =
      match b.call c with
      | .ok b' => (b', none)
      | .error e => (b, some e) := by
  rw [attempt, Edit.run_ofCall]
  cases b.call c with
  | ok b' => rfl
  | error e => rfl

end BranchingTime.Model.Builder
