import BranchingTime.Model

/-!
# BranchingTime — drawings

A model as a graph in the DOT language: a node for each state with its labels
under its name, an edge for each transition. Chosen states are filled, and
dead ends have a border of their own.
-/

namespace BranchingTime

/-- How a drawing looks. -/
structure DrawingStyle where
  nodeShape : String := "circle"
  direction : String := "LR"
  highlightColor : String := "palegreen"
  deadlockColor : String := "red"
  /-- Are labels shown under the names of the states? -/
  showLabels : Bool := true
  /-- Are transitions shown with their names? -/
  showTransitionIds : Bool := true
deriving DecidableEq, Inhabited

namespace Drawing

/-- Writes `written` for every `c` of a text. -/
def replaceChar (c : Char) (written : List Char) (text : List Char) : List Char :=
  text.flatMap fun d => if d == c then written else [d]

/-- Escapes a text inside a quoted string: first every backslash is doubled,
then a backslash goes in front of every quote. The other way round, the
backslashes in front of the quotes would be doubled too. -/
def escape (text : String) : String :=
  String.ofList (replaceChar '\x22' ['\\', '\x22'] (replaceChar '\\' ['\\', '\\'] text.toList))

/-- What is written in the node of a state. -/
def nodeText (style : DrawingStyle) (s : State) : String :=
  if style.showLabels && !s.labels.isEmpty then
    s.id.name ++ "\\n" ++ escape (String.intercalate " " s.labels)
  else
    s.id.name

/-- The statement for a state. -/
def nodeStatement (style : DrawingStyle) (highlight : StateSet) (s : State) : String :=
  s.id.name ++ " [label=\"" ++ nodeText style s ++ "\"" ++
    (if highlight.contains s.id then ", style=filled, fillcolor=" ++ style.highlightColor
      else "") ++
    (if s.isDeadlock then ", color=" ++ style.deadlockColor else "") ++ "];"

/-- The statement for a transition. -/
def edgeStatement (style : DrawingStyle) (t : Transition) : String :=
  t.source.name ++ " -> " ++ t.target.name ++
    (if style.showTransitionIds then " [label=\"" ++ t.id.name ++ "\"];" else ";")

end Drawing

/-- The lines between the braces of a drawing with the states of `highlight`
filled, a statement in each. -/
def Model.drawingStatements (m : Model) (style : DrawingStyle) (highlight : StateSet) :
    List String :=
  ["rankdir=" ++ style.direction ++ ";", "node [shape=" ++ style.nodeShape ++ "];"] ++
    m.states.toList.map (Drawing.nodeStatement style highlight) ++
    m.transitions.toList.map (Drawing.edgeStatement style)

/-- The lines of a drawing with the states of `highlight` filled. -/
def Model.drawingLines (m : Model) (style : DrawingStyle) (highlight : StateSet) : List String :=
  "digraph kripke \x7b" :: m.drawingStatements style highlight ++ ["\x7d"]

/-- The drawing of a model with the states of `highlight` filled. -/
def Model.draw (m : Model) (style : DrawingStyle) (highlight : StateSet) : String :=
  String.join ((m.drawingLines style highlight).map (· ++ "\n"))

end BranchingTime
