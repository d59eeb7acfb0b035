import BranchingTime.Check.Satisfaction
import BranchingTime.Formula.Print

/-!
# BranchingTime — reports

The result of checking one formula, state by state.
-/

namespace BranchingTime

/-- The text of a formula, the states that satisfy it, and all states. -/
structure Report where
  formula : String
  satisfying : StateSet
  states : StateSet
deriving DecidableEq, Inhabited

/-- Whether one state satisfies a formula. -/
structure Verdict where
  state : StateId
  holds : Bool
  formula : String
deriving DecidableEq, Inhabited

/-- The text of a verdict. -/
def Verdict.render (v : Verdict) : String :=
  if v.holds then "✅ " ++ v.state.name ++ " holds for " ++ v.formula
  else "❌ " ++ v.state.name ++ " does not hold for " ++ v.formula

namespace Report

/-- The report that `satisfying`, out of `states`, satisfy `f`. -/
def ofFormula (f : Formula) (satisfying states : StateSet) : Report :=
  { formula := f.render, satisfying, states }

/-- The states that do not satisfy the formula. -/
def violating (r : Report) : StateSet :=
  r.states.diff r.satisfying

/-- Do as many states satisfy the formula as there are? -/
def holdsEverywhere (r : Report) : Bool :=
  r.satisfying.size == r.states.size

/-- The verdict on a state of the report. -/
def verdictOn (r : Report) (state : StateId) : Verdict :=
  { state, holds := r.satisfying.contains state, formula := r.formula }

/-- The verdict on any state; there is none on a state outside the report. -/
def verdict? (r : Report) (state : StateId) : Option Verdict :=
  if r.states.contains state then some (r.verdictOn state) else none

/-- The verdicts on all states, ascending. -/
def verdicts (r : Report) : List Verdict :=
  r.states.toList.map r.verdictOn

/-- The text of a report, a line for each state. -/
def render (r : Report) : String :=
  String.join (r.verdicts.map fun v => v.render ++ "\n")

end Report

/-- Checks `f` and reports on every state. -/
def Model.report (m : Model) (f : Formula) : Report :=
  Report.ofFormula f (m.satisfying f) m.allStates

end BranchingTime
