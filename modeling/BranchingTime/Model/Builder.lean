import BranchingTime.Log
import BranchingTime.Model

/-!
# BranchingTime — building models

A model grows by three calls: declare a state, add a transition between
declared states, put a label on a declared state. Each call either adds
exactly one thing or fails and adds nothing. A model may hold a state, a pair
of source and target, a transition identifier and a label of a state only
once.
-/

namespace BranchingTime

/-- Why something cannot be added to a model. -/
inductive ModelError where
  | duplicateState (id : StateId)
  | duplicateTransition (existing duplicate : TransitionId) (source target : StateId)
  | duplicateTransitionId (id : TransitionId)
  | unknownState (transition : TransitionId) (state : StateId)
  | unknownLabelState (state : StateId) (label : String)
  | duplicateLabel (state : StateId) (label : String)
deriving DecidableEq, Inhabited

/-- The message for a model error. -/
def ModelError.message : ModelError → String
  | duplicateState id => "duplicate state " ++ id.name
  | duplicateTransition existing duplicate source target =>
    "duplicate transition " ++ duplicate.name ++ " (" ++ source.name ++ " - " ++ target.name ++
      "), already given as " ++ existing.name
  | duplicateTransitionId id => "duplicate transition id " ++ id.name
  | unknownState transition state =>
    "transition " ++ transition.name ++ " refers to unknown state " ++ state.name
  | unknownLabelState state label =>
    "label \"" ++ label ++ "\" attached to unknown state " ++ state.name
  | duplicateLabel state label =>
    "label \"" ++ label ++ "\" given twice for state " ++ state.name

namespace Model

/-- A model in the making. The states stand in the order in which they were
declared, and the index tells their places in it; sources and targets, and the
identifiers of transitions, are kept to find repetitions. -/
structure Builder where
  states : Array State := #[]
  index : List (StateId × Nat) := []
  transitions : Array Transition := #[]
  edges : List ((StateId × StateId) × TransitionId) := []
  transitionIds : List TransitionId := []
deriving DecidableEq, Inhabited

namespace Builder

-- ---------------------------------------------------------------------------
-- Adding parts
-- ---------------------------------------------------------------------------

/-- A state that the transition at `place` leaves too. -/
def withOutgoing (place : Nat) (s : State) : State :=
  { s with outgoing := s.outgoing ++ [place] }

/-- A state that carries `label` too. -/
def withLabel (label : String) (s : State) : State :=
  { s with labels := Ascending.insert label s.labels }

/-- Declares the state `id`. -/
def addState (b : Builder) (id : StateId) : Except ModelError Builder :=
  match b.index.lookup id with
  | some _ => .error (.duplicateState id)
  | none =>
    .ok { b with states := b.states.push { id }, index := (id, b.states.size) :: b.index }

/-- Adds the transition `t`. -/
def addTransition (b : Builder) (t : Transition) : Except ModelError Builder :=
  match b.index.lookup t.source, b.index.lookup t.target with
  | none, _ => .error (.unknownState t.id t.source)
  | some _, none => .error (.unknownState t.id t.target)
  | some origin, some _ =>
    match b.edges.lookup (t.source, t.target) with
    | some existing => .error (.duplicateTransition existing t.id t.source t.target)
    | none =>
      if b.transitionIds.contains t.id then
        .error (.duplicateTransitionId t.id)
      else
        .ok { b with
          states := b.states.modify origin (withOutgoing b.transitions.size)
          transitions := b.transitions.push t
          edges := ((t.source, t.target), t.id) :: b.edges
          transitionIds := t.id :: b.transitionIds }

/-- Puts `label` on the state `id`. -/
def addLabel (b : Builder) (id : StateId) (label : String) : Except ModelError Builder :=
  match b.index.lookup id with
  | none => .error (.unknownLabelState id label)
  | some place =>
    if b.states[place]?.any (·.hasLabel label) then
      .error (.duplicateLabel id label)
    else
      .ok { b with states := b.states.modify place (withLabel label) }

-- ---------------------------------------------------------------------------
-- Sequences of calls
-- ---------------------------------------------------------------------------

/-- A call that adds one part. -/
inductive Call where
  | state (id : StateId)
  | transition (t : Transition)
  | label (id : StateId) (label : String)
deriving DecidableEq, Inhabited

/-- Carries out one call. -/
def call (b : Builder) : Call → Except ModelError Builder
  | .state id => b.addState id
  | .transition t => b.addTransition t
  | .label id label => b.addLabel id label

-- ---------------------------------------------------------------------------
-- Calls that change a builder in place
-- ---------------------------------------------------------------------------

/-- A program that changes a builder step by step. What it has changed before an
error stays changed. -/
abbrev Edit := EStateM ModelError Builder

namespace Edit

/-- The place of the state `id`, or the error that it is not declared. -/
def placeOf (id : StateId) (undeclared : ModelError) : Edit Nat := do
  match (← get).index.lookup id with
  | some place => return place
  | none => throw undeclared

/-- Puts an identifier of a transition to those in use, and tells whether it was
missing there. -/
def insertTransitionId (id : TransitionId) : Edit Bool :=
  modifyGet fun b =>
    if b.transitionIds.contains id then (false, b)
    else (true, { b with transitionIds := id :: b.transitionIds })

/-- Declares the state `id`. -/
def addState (id : StateId) : Edit Unit := do
  if ((← get).index.lookup id).isSome then
    throw (.duplicateState id)
  modify fun b => { b with index := (id, b.states.size) :: b.index }
  modify fun b => { b with states := b.states.push { id } }

/-- Adds the transition `t`. Its identifier is taken into use by the very step that
finds out whether it was in use before. -/
def addTransition (t : Transition) : Edit Unit := do
  let origin ← placeOf t.source (.unknownState t.id t.source)
  let _ ← placeOf t.target (.unknownState t.id t.target)
  if let some existing := (← get).edges.lookup (t.source, t.target) then
    throw (.duplicateTransition existing t.id t.source t.target)
  if !(← insertTransitionId t.id) then
    throw (.duplicateTransitionId t.id)
  modify fun b => { b with edges := ((t.source, t.target), t.id) :: b.edges }
  let place := (← get).transitions.size
  modify fun b => { b with transitions := b.transitions.push t }
  modify fun b => { b with states := b.states.modify origin (withOutgoing place) }

/-- Puts `label` on the state `id`. -/
def addLabel (id : StateId) (label : String) : Edit Unit := do
  let place ← placeOf id (.unknownLabelState id label)
  if (← get).states[place]?.any (·.hasLabel label) then
    throw (.duplicateLabel id label)
  modify fun b => { b with states := b.states.modify place (withLabel label) }

/-- Carries out one call. -/
def ofCall : Call → Edit Unit
  | .state id => addState id
  | .transition t => addTransition t
  | .label id label => addLabel id label

end Edit

/-- Carries out one call on a builder that stays in use whatever comes of it. Also
returns the error, if there is one. -/
def attempt (b : Builder) (c : Call) : Builder × Option ModelError :=
  match (Edit.ofCall c).run b with
  | .ok _ b' => (b', none)
  | .error e b' => (b', some e)

/-- Carries out calls one after the other, going on after a failing one. -/
def attemptAll (b : Builder) : List Call → Builder × List (Option ModelError)
  | [] => (b, [])
  | c :: rest =>
    let (b', error?) := b.attempt c
    let (b'', errors) := b'.attemptAll rest
    (b'', error? :: errors)

/-- Carries out calls up to the first error. -/
def callAll (b : Builder) (calls : List Call) : Except ModelError Builder :=
  calls.foldlM call b

-- ---------------------------------------------------------------------------
-- The finished model
-- ---------------------------------------------------------------------------

/-- The states, ascending by identifier. -/
def sortedStates (b : Builder) : List State :=
  b.states.toList.mergeSort fun s t => s.id.number ≤ t.id.number

/-- The position of each state. -/
def positionIndex (states : List State) : List (StateId × Nat) :=
  states.zipIdx.map fun (s, i) => (s.id, i)

/-- Fills in the positions of the successors of a state. -/
def finish (transitions : Array Transition) (index : List (StateId × Nat)) (s : State) : State :=
  { s with
    successors := s.outgoing.filterMap fun k =>
      transitions[k]?.bind fun t => index.lookup t.target }

/-- The model of all that was added. The places of the states change when they
are sorted, so the index is computed anew. -/
def build (b : Builder) : Model :=
  let sorted := b.sortedStates
  let index := positionIndex sorted
  { states := (sorted.map (finish b.transitions index)).toArray
    index
    transitions := b.transitions
    allStates := .ofList (sorted.map State.id)
    allPositions := (BitSet.withCapacity sorted.length).insertMany (List.range sorted.length) }

end Builder

/-- Builds a model from its states, its transitions and the labels of its
states, added in this order up to the first error. -/
def ofParts (states : List StateId) (transitions : List Transition)
    (labels : List (StateId × List String)) : Except ModelError Model :=
  let calls :=
    states.map .state ++ transitions.map .transition ++
      labels.flatMap fun (id, names) => names.map (.label id)
  (Builder.callAll {} calls).map Builder.build

/-- The records of having built `m`. -/
def builtLog (m : Model) : Log :=
  [{ level := .debug
     topic := .models
     message :=
       s!"built Kripke structure with {m.size} states and {m.transitions.size} transitions" }]

/-- The records of building a model: an error leaves none. -/
def buildLog : Except ModelError Model → Log
  | .ok m => m.builtLog
  | .error _ => []

end Model

end BranchingTime
