import BranchingTime.Model

/-!
# BranchingTime — printing models

The text of a model has a line with its states, a line for each transition in
the order of the identifiers, and a line with the labels of each state. The
last line of each of these parts ends with a semicolon, the others with a
comma.
-/

namespace BranchingTime.Model

/-- The lines of one part, each with its final comma or semicolon. -/
def terminated : List String → List String
  | [] => []
  | [line] => [line ++ ";"]
  | line :: rest => (line ++ ",") :: terminated rest

/-- The transitions in the order of their identifiers. -/
def sortedTransitions (m : Model) : List Transition :=
  m.transitions.toList.mergeSort fun t u => t.id.number ≤ u.id.number

/-- The line of a transition, without its end. -/
def transitionLine (t : Transition) : String :=
  t.id.name ++ " : " ++ t.source.name ++ " - " ++ t.target.name

/-- The line with the labels of a state, without its end. -/
def labelLine (s : State) : String :=
  s.id.name ++ " : " ++ String.intercalate " " s.labels

/-- The lines of a model's text. -/
def renderLines (m : Model) : List String :=
  [String.intercalate ", " (m.states.toList.map (·.id.name)) ++ ";"] ++
    terminated (m.sortedTransitions.map transitionLine) ++
    terminated (m.states.toList.map labelLine)

/-- The text of a model. -/
def render (m : Model) : String :=
  String.join (m.renderLines.map (· ++ "\n"))

end BranchingTime.Model
