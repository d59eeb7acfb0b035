import BranchingTime.Model.Builder
import BranchingTime.Text.Line

/-!
# BranchingTime — reading models

The first line with content lists the states, separated by commas. Every later
line is a transition, `t1 : s1 - s2`, or the labels of a state, `s1 : p q`.
Each line may end with a comma or a semicolon, blank lines are skipped, and the
dash may be a hyphen, an en dash or an em dash. A model with states needs at
least one line of labels.

Reading stops at the first line that is at fault and says which line it was.
-/

namespace BranchingTime

/-- The two kinds of lines after the first one. -/
inductive ModelLine where
  | transition
  | labels
deriving DecidableEq, Inhabited

/-- A correct line, for messages. -/
def ModelLine.sample : ModelLine → String
  | transition => "t1 : s1 - s2;"
  | labels => "s1 : p;"

/-- What is wrong with a line of a model's text. -/
inductive ModelLineFault where
  | invalidStateName (name : String)
  | invalidTransitionName (name : String)
  | missingColon (wanted : ModelLine)
  | missingDestination
  | invalidLabel (label : String)
  | unexpectedLine (text : String)
  | missingLabels
  | model (cause : ModelError)
deriving DecidableEq, Inhabited

/-- The message for a faulty line, without its number. -/
def ModelLineFault.message : ModelLineFault → String
  | invalidStateName name => "invalid state name \"" ++ name ++ "\""
  | invalidTransitionName name => "invalid transition name \"" ++ name ++ "\""
  | missingColon wanted => "no colon found (a correct line could be \"" ++ wanted.sample ++ "\")"
  | missingDestination =>
    "no destination state found (a correct line could be \"" ++ ModelLine.transition.sample ++
      "\")"
  | invalidLabel label => "invalid label \"" ++ label ++ "\" (labels consist of letters only)"
  | unexpectedLine text => "expected a transition or labels line, found \"" ++ text ++ "\""
  | missingLabels =>
    "no labels line found (a labels line could be \"" ++ ModelLine.labels.sample ++ "\")"
  | model cause => cause.message

/-- Why a text is not a model. -/
inductive ModelTextError where
  | empty
  | atLine (line : Nat) (fault : ModelLineFault)
deriving DecidableEq, Inhabited

namespace ModelTextError

/-- The line at fault. -/
def line? : ModelTextError → Option Nat
  | empty => none
  | atLine line _ => some line

/-- The error of the model builder behind this one. -/
def cause? : ModelTextError → Option ModelError
  | atLine _ (.model cause) => some cause
  | _ => none

/-- The message for a text that is not a model. -/
def message : ModelTextError → String
  | empty => "empty model file"
  | atLine line fault => "line " ++ toString line ++ ": " ++ fault.message

end ModelTextError

namespace Model

open Text (trim trimRight splitBy splitFirst? Line)

-- ---------------------------------------------------------------------------
-- Pieces of a line
-- ---------------------------------------------------------------------------

/-- A line without its final comma or semicolon. -/
def dropTerminator (text : List Char) : List Char :=
  match text.getLast? with
  | some ',' => trimRight text.dropLast
  | some ';' => trimRight text.dropLast
  | _ => trimRight text

/-- Reads a name with this letter, of which `fault` complains if it is none. -/
def readIdent (letter : Char) (fault : String → ModelLineFault) (name : List Char) :
    Except ModelLineFault (Ident letter) :=
  match Ident.ofName? letter (String.ofList name) with
  | some id => .ok id
  | none => .error (fault (String.ofList name))

/-- Reads the name of a state. -/
def readState (name : List Char) : Except ModelLineFault StateId :=
  readIdent 's' .invalidStateName name

/-- Reads the name of a transition. -/
def readTransitionId (name : List Char) : Except ModelLineFault TransitionId :=
  readIdent 't' .invalidTransitionName name

/-- Cuts a line at its colon. -/
def cutAtColon (wanted : ModelLine) (body : List Char) :
    Except ModelLineFault (List Char × List Char) :=
  match splitFirst? (· == ':') body with
  | some (name, rest) => .ok (trim name, rest)
  | none => .error (.missingColon wanted)

/-- Is this one of the dashes between two states? -/
def isDash (c : Char) : Bool :=
  c == '-' || c == '–' || c == '—'

/-- Cuts the two states of a transition apart. -/
def cutAtDash (edge : List Char) : Except ModelLineFault (List Char × List Char) :=
  match splitFirst? isDash edge with
  | none => .error .missingDestination
  | some (source, target) =>
    if (trim target).isEmpty then .error .missingDestination else .ok (trim source, trim target)

/-- Does this character separate labels? -/
def isLabelSeparator (c : Char) : Bool :=
  c == ' ' || c == '\t' || c == ','

/-- The words of a list of labels. -/
def labelWords (cs : List Char) : List (List Char) :=
  (splitBy isLabelSeparator cs).filter fun word => !word.isEmpty

-- ---------------------------------------------------------------------------
-- Lines
-- ---------------------------------------------------------------------------

/-- Hands a call on to the builder. -/
def addPart (b : Builder) (call : Builder.Call) : Except ModelLineFault Builder :=
  (b.call call).mapError .model

/-- Declares the states of the first line. -/
def readStates (b : Builder) (text : List Char) : Except ModelLineFault Builder :=
  let body := dropTerminator text
  if body.isEmpty then
    .ok b
  else
    (splitBy (· == ',') body).foldlM (fun b name => do
      let id ← readState (trim name)
      addPart b (.state id)) b

/-- Adds the transition of a line. -/
def readTransition (b : Builder) (body : List Char) : Except ModelLineFault Builder := do
  let (name, edge) ← cutAtColon .transition body
  let id ← readTransitionId name
  let (source, target) ← cutAtDash edge
  let source ← readState source
  let target ← readState target
  addPart b (.transition { id, source, target })

/-- Adds one label to a state. -/
def readLabel (id : StateId) (b : Builder) (word : List Char) : Except ModelLineFault Builder :=
  let label := String.ofList word
  if word.all Char.isAlpha then addPart b (.label id label) else .error (.invalidLabel label)

/-- Adds the labels of a line, one after the other. -/
def readLabels (b : Builder) (body : List Char) : Except ModelLineFault Builder := do
  let (name, labels) ← cutAtColon .labels body
  let id ← readState name
  (labelWords labels).foldlM (readLabel id) b

/-- Adds what a line after the first one says. -/
def readLine (b : Builder) (text : List Char) : Except ModelLineFault Builder :=
  let body := dropTerminator text
  match body with
  | 't' :: _ => readTransition b body
  | 's' :: _ => readLabels b body
  | _ => .error (.unexpectedLine (String.ofList text))

/-- Does a line after the first one give labels? -/
def isLabelLine (text : List Char) : Bool :=
  (dropTerminator text).head? == some 's'

/-- Adds what lines after the first one say, one after the other. -/
def readLines (b : Builder) : List Line → Except ModelTextError Builder
  | [] => .ok b
  | line :: rest =>
    match readLine b line.text with
    | .ok b' => readLines b' rest
    | .error fault => .error (.atLine line.number fault)

-- ---------------------------------------------------------------------------
-- Texts
-- ---------------------------------------------------------------------------

/-- Reads a model from its text. -/
def parse (text : String) : Except ModelTextError Model :=
  let chars := Text.dropByteOrderMark text.toList
  match Text.filledLines chars with
  | [] => .error .empty
  | first :: rest =>
    match readStates {} first.text with
    | .error fault => .error (.atLine first.number fault)
    | .ok declared =>
      match readLines declared rest with
      | .error e => .error e
      | .ok b =>
        if !rest.any (isLabelLine ·.text) && !b.states.isEmpty then
          .error (.atLine ((Text.physicalLines chars).length + 1) .missingLabels)
        else
          .ok b.build

/-- The records of reading a model: an error leaves none. -/
def parseLog : Except ModelTextError Model → Log
  | .ok m =>
    m.builtLog ++
      [{ level := .debug
         topic := .modelTexts
         message := s!"parsed model file: {m.size} states, {m.transitions.size} transitions" }]
  | .error _ => []

end Model

end BranchingTime
