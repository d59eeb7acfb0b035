import BranchingTime.Check.Predecessors

/-!
# BranchingTime — fixpoints

Two least fixpoints carry all temporal operators: the states from which some
path reaches a goal through allowed states, and the states from which every
path reaches a goal. Each starts from the goal and adds predecessors until
nothing changes; the step that finds no change is counted too.
-/

namespace BranchingTime.Model

/-- Which of the two fixpoints was computed. -/
inductive FixpointKind where
  /-- Some path reaches the goal through allowed states. -/
  | someUntil
  /-- Every path reaches the goal. -/
  | allEventually
deriving DecidableEq, Inhabited

/-- The name of a fixpoint in the log. -/
def FixpointKind.name : FixpointKind → String
  | .someUntil => "EU"
  | .allEventually => "AF"

/-- A fixpoint computation: its result, and the number of steps it took. -/
structure Fixpoint where
  kind : FixpointKind
  result : BitSet
  iterations : Nat
deriving Inhabited

/-- Applies `step` until nothing changes, at most `fuel` times. Returns the set
that was reached and the number of steps. -/
def iterate (step : BitSet → BitSet) : (fuel : Nat) → BitSet → BitSet × Nat
  | 0, current => (current, 0)
  | fuel + 1, current =>
    let next := step current
    if next == current then
      (current, 1)
    else
      let (result, iterations) := iterate step fuel next
      (result, iterations + 1)

/-- Iterates from `start`. Each step but the last adds a position, so one step
more than there are positions is enough. -/
def leastFixpoint (m : Model) (kind : FixpointKind) (step : BitSet → BitSet) (start : BitSet) :
    Fixpoint :=
  let (result, iterations) := iterate step (m.size + 1) start
  { kind, result, iterations }

/-- One step of `someUntil`: adds the allowed positions that have a successor
in the set. -/
def someUntilStep (m : Model) (allowed current : BitSet) : BitSet :=
  ((m.pre .some current).inter allowed).union current

/-- The positions from which some path reaches `goal` through `allowed`
positions. -/
def someUntil (m : Model) (allowed goal : BitSet) : Fixpoint :=
  m.leastFixpoint .someUntil (m.someUntilStep allowed) goal

/-- One step of `allEventually`: adds the positions all of whose successors,
of which there is at least one, are in the set. -/
def allEventuallyStep (m : Model) (current : BitSet) : BitSet :=
  (m.pre .all current).union current

/-- The positions from which every path reaches `goal`. -/
def allEventually (m : Model) (goal : BitSet) : Fixpoint :=
  m.leastFixpoint .allEventually m.allEventuallyStep goal

end BranchingTime.Model
