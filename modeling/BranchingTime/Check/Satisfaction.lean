import BranchingTime.Check.Fixpoint
import BranchingTime.Log

/-!
# BranchingTime — checking formulas

Every node of a formula is evaluated to the set of positions that satisfy it,
operands first:

| operator | satisfied in |
|---|---|
| `EX φ` | the states with a successor in φ |
| `AX φ` | the states with no successor outside φ; a dead end is one |
| `E(φ U ψ)` | the fixpoint `someUntil φ ψ` |
| `EF φ` | `someUntil` from all states |
| `AF φ` | the fixpoint `allEventually φ` |
| `EG φ` | the states outside `AF ¬φ` |
| `AG φ` | the states outside `EF ¬φ` |
| `A(φ U ψ)` | the states outside `E(¬ψ U ¬φ ∧ ¬ψ)` and `EG ¬ψ` |

An evaluation keeps the fixpoints it went through; counters and log records
are read off them.
-/

namespace BranchingTime

namespace Model

-- ---------------------------------------------------------------------------
-- One node
-- ---------------------------------------------------------------------------

/-- The evaluation of one node: the positions that satisfy it, and the
fixpoints that were computed for it, in order. -/
structure Evaluation where
  satisfying : BitSet
  fixpoints : List Fixpoint
deriving Inhabited

/-- The evaluation that is the complement of a fixpoint. -/
def outside (m : Model) (fixpoint : Fixpoint) : Evaluation :=
  { satisfying := m.complement fixpoint.result, fixpoints := [fixpoint] }

/-- Evaluates a temporal operator with one operand. -/
def evaluateTemporal (m : Model) (q : Quantifier) (p : PathOperator) (φ : BitSet) : Evaluation :=
  match p, q with
  | .next, .some => { satisfying := m.pre .some φ, fixpoints := [] }
  | .next, .all =>
    { satisfying := m.complement (m.pre .some (m.complement φ)), fixpoints := [] }
  | .eventually, .some =>
    let reach := m.someUntil m.allPositions φ
    { satisfying := reach.result, fixpoints := [reach] }
  | .eventually, .all =>
    let reach := m.allEventually φ
    { satisfying := reach.result, fixpoints := [reach] }
  | .always, .some => m.outside (m.allEventually (m.complement φ))
  | .always, .all => m.outside (m.someUntil m.allPositions (m.complement φ))

/-- Evaluates an until. -/
def evaluateUntl (m : Model) (q : Quantifier) (φ ψ : BitSet) : Evaluation :=
  match q with
  | .some =>
    let reach := m.someUntil φ ψ
    { satisfying := reach.result, fixpoints := [reach] }
  | .all =>
    let notψ := m.complement ψ
    let neither := (m.complement φ).inter notψ
    let violated := m.someUntil notψ neither
    let escape := m.allEventually (m.complement notψ)
    let avoided := m.complement escape.result
    { satisfying := m.complement (violated.result.union avoided)
      fixpoints := [violated, escape] }

/-- Evaluates a connective. -/
def evaluateConnective (m : Model) (op : Connective) (φ ψ : BitSet) : BitSet :=
  match op with
  | .and => φ.inter ψ
  | .or => φ.union ψ
  | .implies => (m.complement φ).union ψ

/-- Evaluates a node whose operands have been evaluated. -/
def evaluateNode (m : Model) : Node BitSet → Evaluation
  | .atom name => { satisfying := m.positionsWhere (·.hasLabel name), fixpoints := [] }
  | .not φ => { satisfying := m.complement φ, fixpoints := [] }
  | .connective op φ ψ => { satisfying := m.evaluateConnective op φ ψ, fixpoints := [] }
  | .temporal q p φ => m.evaluateTemporal q p φ
  | .untl q φ ψ => m.evaluateUntl q φ ψ

-- ---------------------------------------------------------------------------
-- Whole formulas
-- ---------------------------------------------------------------------------

/-- A checked formula: the evaluation of each node, operands first, and the
states that satisfy the whole. -/
structure Checked where
  evaluations : Array Evaluation
  satisfying : StateSet
deriving Inhabited

/-- Evaluates one more node, and adds its evaluation to the earlier ones. -/
def recordNode (m : Model) (node : Node BitSet) (evaluations : Array Evaluation) :
    BitSet × Array Evaluation :=
  let evaluation := m.evaluateNode node
  (evaluation.satisfying, evaluations.push evaluation)

/-- Checks a formula. -/
def check (m : Model) (f : Formula) : Checked :=
  let (root, evaluations) := f.collapse m.recordNode #[]
  { evaluations, satisfying := m.toStateSet root }

/-- The states that satisfy a formula. -/
def satisfying (m : Model) (f : Formula) : StateSet :=
  (m.check f).satisfying

/-- Does the model have the state `id`, and does the state satisfy `f`? -/
def holdsIn (m : Model) (f : Formula) (id : StateId) : Bool :=
  m.contains id && (m.satisfying f).contains id

-- ---------------------------------------------------------------------------
-- Counters and log
-- ---------------------------------------------------------------------------

/-- What it took to check a formula. -/
structure CheckCost where
  /-- The number of nodes that were evaluated. -/
  nodes : Nat
  /-- The number of fixpoints. -/
  fixpoints : Nat
  /-- The number of steps of all fixpoints together. -/
  iterations : Nat
  /-- The largest number of steps of one fixpoint. -/
  maxIterations : Nat
deriving DecidableEq, Inhabited

/-- All fixpoints of a check, in order. -/
def Checked.fixpoints (c : Checked) : List Fixpoint :=
  c.evaluations.toList.flatMap Evaluation.fixpoints

/-- The counters of a check. -/
def Checked.cost (c : Checked) : CheckCost :=
  let counts := c.fixpoints.map Fixpoint.iterations
  { nodes := c.evaluations.size
    fixpoints := counts.length
    iterations := counts.foldl (· + ·) 0
    maxIterations := counts.foldl max 0 }

/-- The record of a fixpoint. -/
def fixpointRecord (x : Fixpoint) : Log.Record :=
  { level := .debug
    topic := .checking
    message :=
      s!"{x.kind.name} fixpoint reached after {x.iterations} iterations " ++
        s!"with {x.result.size} states" }

/-- The records of evaluating node number `k`, counted from 1. -/
def evaluationLog (k : Nat) (e : Evaluation) : Log :=
  e.fixpoints.map fixpointRecord ++
    [{ level := .trace
       topic := .checking
       message := s!"node {k} satisfied by {e.satisfying.size} states" }]

/-- The records of a check. -/
def checkLog (m : Model) (c : Checked) : Log :=
  let cost := c.cost
  let found := c.satisfying.size
  c.evaluations.toList.zipIdx.flatMap (fun (e, k) => evaluationLog (k + 1) e) ++
    [{ level := .debug
       topic := .checking
       message :=
         s!"checked formula of {cost.nodes} nodes: {found} of {m.size} states satisfy it " ++
           s!"({cost.fixpoints} fixpoints, {cost.iterations} iterations)" }]

/-- The records of `holdsIn`: a state that the model does not have is not
checked. -/
def holdsInLog (m : Model) (f : Formula) (id : StateId) : Log :=
  if m.contains id then m.checkLog (m.check f) else []

end Model

end BranchingTime
