import BranchingTime.Model

/-!
# BranchingTime — predecessors

The two operators that every temporal operator is made from: the states with
some successor in a set, and the states that have a successor and whose
successors are all in the set. A dead end, a state without successors, is in
neither.
-/

namespace BranchingTime.Model

/-- The positions from which some step, or every step and at least one, leads
into `targets`. -/
def pre (m : Model) (q : Quantifier) (targets : BitSet) : BitSet :=
  match q with
  | .some => m.positionsWhere fun s => s.successors.any targets.contains
  | .all => m.positionsWhere fun s => !s.isDeadlock && s.successors.all targets.contains

/-- The same for sets of states. Members that the model does not have play no
part. -/
def preStates (m : Model) (q : Quantifier) (targets : StateSet) : StateSet :=
  m.toStateSet (m.pre q (m.toPositions targets))

/-- The positions that are not in `s`. -/
def complement (m : Model) (s : BitSet) : BitSet :=
  m.allPositions.diff s

end BranchingTime.Model
