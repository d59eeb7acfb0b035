import BranchingTime.BitSet
import BranchingTime.Formula
import BranchingTime.StateSet

/-!
# BranchingTime — models

A model is a finite transition system whose states carry labels. Its states
are kept in an array that ascends by identifier; the place of a state in this
array is its *position*. Sets of positions are bit sets, sets of identifiers
are state sets.

A state knows the transitions that leave it by their places in the model's
array of transitions, and their targets by position. The index from
identifiers to positions, the set of all states and the set of all positions
are computed once, when the model is built.

Models are made by `Model.Builder`, which checks every part as it is added.
-/

namespace BranchingTime

/-- An edge between two states. -/
structure Transition where
  id : TransitionId
  source : StateId
  target : StateId
deriving DecidableEq, Inhabited

/-- A state of a model. -/
structure State where
  id : StateId
  /-- The labels, ascending. -/
  labels : List String := []
  /-- The places of the transitions that leave the state, in the order in which
  they were added. -/
  outgoing : List Nat := []
  /-- The positions of the targets of these transitions, in the same order. -/
  successors : List Nat := []
deriving DecidableEq, Inhabited

/-- Does no transition leave the state? -/
def State.isDeadlock (s : State) : Bool :=
  s.outgoing.isEmpty

/-- Does the state carry `label`? -/
def State.hasLabel (s : State) (label : String) : Bool :=
  s.labels.contains label

/-- A transition system: the states ascend by identifier, the transitions stand
in the order in which they were added. -/
structure Model where
  states : Array State
  /-- The position of each state. -/
  index : List (StateId × Nat)
  transitions : Array Transition
  allStates : StateSet
  allPositions : BitSet
deriving Inhabited

namespace Model

-- ---------------------------------------------------------------------------
-- States and transitions
-- ---------------------------------------------------------------------------

/-- The number of states. -/
def size (m : Model) : Nat :=
  m.states.size

/-- The position of the state `id`. -/
def position? (m : Model) (id : StateId) : Option Nat :=
  m.index.lookup id

/-- The state `id`. -/
def state? (m : Model) (id : StateId) : Option State :=
  (m.position? id).bind fun i => m.states[i]?

/-- Is `id` a state of the model? -/
def contains (m : Model) (id : StateId) : Bool :=
  (m.position? id).isSome

/-- The labels of the state `id`. -/
def labelsOf? (m : Model) (id : StateId) : Option (List String) :=
  (m.state? id).map State.labels

/-- The transitions that leave `id`; a state that the model does not have has
none. -/
def transitionsOf (m : Model) (id : StateId) : List Transition :=
  match m.state? id with
  | none => []
  | some s => s.outgoing.filterMap fun k => m.transitions[k]?

/-- The states that the transitions of `id` lead to. -/
def successorsOf (m : Model) (id : StateId) : List StateId :=
  (m.transitionsOf id).map Transition.target

/-- The states that satisfy a condition. -/
def statesWhere (m : Model) (condition : State → Bool) : StateSet :=
  .ofList ((m.states.toList.filter condition).map State.id)

/-- The states that carry `label`. -/
def statesWithLabel (m : Model) (label : String) : StateSet :=
  m.statesWhere (·.hasLabel label)

/-- The states that no transition leaves. -/
def deadlocks (m : Model) : StateSet :=
  m.statesWhere State.isDeadlock

/-- Does a transition leave every state? -/
def isDeadlockFree (m : Model) : Bool :=
  m.states.all fun s => !s.isDeadlock

/-- The labels that some state carries, ascending, each once. -/
def atoms (m : Model) : List String :=
  Ascending.ofList (m.states.toList.flatMap State.labels)

-- ---------------------------------------------------------------------------
-- Positions
-- ---------------------------------------------------------------------------

/-- The positions of the states that satisfy a condition. -/
def positionsWhere (m : Model) (condition : State → Bool) : BitSet :=
  (BitSet.withCapacity m.size).insertMany
    ((List.range m.size).filter fun i => m.states[i]?.any condition)

/-- The positions of the members of `set`; identifiers that the model does not
have are dropped. -/
def toPositions (m : Model) (set : StateSet) : BitSet :=
  (BitSet.withCapacity m.size).insertMany (set.toList.filterMap m.position?)

/-- The states at the given positions. -/
def toStateSet (m : Model) (positions : BitSet) : StateSet :=
  .ofList (positions.toList.filterMap fun i => m.states[i]?.map State.id)

end Model

end BranchingTime
