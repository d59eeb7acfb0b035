import BranchingTime.Command.Arguments
import BranchingTime.Command.Directory
import BranchingTime.Drawing
import BranchingTime.Model.Parse
import BranchingTime.Model.Print
import BranchingTime.Report
import BranchingTime.Suite

/-!
# BranchingTime — carrying out a command line

A command reads its files, checks all of its input, and only then prints. What
it prints and logs on the way is a list of events; a command that fails keeps
the events up to its failure. Log records that the verbosity lets through stand on
the standard output among the texts that are printed.

The wording of help and of messages about a faulty command line is not part of a
result: both are told by the exit code.
-/

namespace BranchingTime.Command

-- ---------------------------------------------------------------------------
-- Failures
-- ---------------------------------------------------------------------------

/-- Why a command failed. -/
inductive Failure where
  | unreadable (path : String) (cause : FileError)
  | unwritable (path : String) (cause : FileError)
  | invalidModel (path : String) (cause : ModelTextError)
  | invalidSuite (path : String) (cause : SuiteError)
  | invalidFormula (text : String) (cause : ParseError)
  | missingFormula
  | invalidState (name : String)
  | unknownState (id : StateId)
  | failedCases (failed total : Nat)
deriving DecidableEq, Inhabited

/-- The messages for a failure, from the outermost to its innermost cause. -/
def Failure.messages : Failure → List String
  | unreadable path cause => ["Failed to read " ++ path, cause.message]
  | unwritable path cause => ["Failed to write " ++ path, cause.message]
  | invalidModel path cause =>
    ["Invalid model file " ++ path, cause.message] ++ cause.cause?.toList.map ModelError.message
  | invalidSuite path cause =>
    ["Invalid suite file " ++ path, cause.message] ++ cause.cause?.toList.map ParseError.message
  | invalidFormula text cause => ["Invalid formula \"" ++ text ++ "\"", cause.message]
  | missingFormula => ["Either --formula or --formulas is required"]
  | invalidState name => ["Invalid state name \"" ++ name ++ "\""]
  | unknownState id => ["State " ++ id.name ++ " is not in the model"]
  | failedCases failed total => [toString failed ++ " of " ++ toString total ++ " cases failed"]

-- ---------------------------------------------------------------------------
-- Sessions
-- ---------------------------------------------------------------------------

/-- Something that a command lets out while it runs. -/
inductive Event where
  | print (text : String)
  | log (record : Log.Record)
deriving DecidableEq, Inhabited

/-- The directory as a command has left it so far, and the events up to now. -/
structure Session where
  directory : Directory
  events : List Event := []

/-- A piece of a command: it may fail, and what happened before stays. -/
abbrev Run (α : Type) := ExceptT Failure (StateM Session) α

/-- Lets out events. -/
def emit (events : List Event) : Run Unit :=
  modify fun session => { session with events := session.events ++ events }

/-- Prints a text. -/
def print (text : String) : Run Unit :=
  emit [.print text]

/-- Logs records. -/
def logAll (log : Log) : Run Unit :=
  emit (log.map .log)

/-- Logs a record of the command line itself. -/
def logInfo (message : String) : Run Unit :=
  logAll [{ level := .info, topic := .command, message }]

/-- The value of a result, or the failure that its error means. -/
def orFail {ε α : Type} (failure : ε → Failure) (result : Except ε α) : Run α :=
  match result with
  | .ok value => pure value
  | .error e => throw (failure e)

-- ---------------------------------------------------------------------------
-- Input
-- ---------------------------------------------------------------------------

/-- Reads a file. -/
def readFile (path : String) : Run String := do
  let session ← get
  orFail (.unreadable path) (session.directory.read path)

/-- Reads a model file. -/
def loadModel (path : String) : Run Model := do
  let text ← readFile path
  let result := Model.parse text
  logAll (Model.parseLog result)
  let m ← orFail (.invalidModel path) result
  logInfo s!"Loaded model {path} with {m.size} states and {m.transitions.size} transitions"
  return m

/-- Parses a formula. -/
def readFormula (text : String) : Run Formula := do
  let result := Formula.parse text
  logAll (Formula.parseLog result)
  orFail (.invalidFormula text) result

/-- The lines of a formula file that hold formulas. -/
def formulaLines (text : String) : List String :=
  ((Text.filledLines text.toList).filter fun line => !line.isComment).map
    fun line => String.ofList line.text

/-- Reads formulas: the one given as an argument, else those of a file. -/
def loadFormulas (formula file : Option String) : Run (List Formula) :=
  match formula, file with
  | some text, _ => do
    let f ← readFormula text
    return [f]
  | none, some path => do
    let text ← readFile path
    (formulaLines text).mapM readFormula
  | none, none => throw .missingFormula

/-- Reads the name of a state of the model. -/
def readStateOf (m : Model) (name : String) : Run StateId :=
  match Ident.ofName? 's' name with
  | none => throw (.invalidState name)
  | some id => if m.contains id then pure id else throw (.unknownState id)

/-- The states that satisfy a formula. -/
def checkFormula (m : Model) (f : Formula) : Run StateSet := do
  let checked := m.check f
  logAll (m.checkLog checked)
  return checked.satisfying

-- ---------------------------------------------------------------------------
-- Subcommands
-- ---------------------------------------------------------------------------

/-- Prints the verdicts on all states, or on the one that was asked for. -/
def printReport (m : Model) (state : Option StateId) (f : Formula) : Run Unit := do
  let satisfying ← checkFormula m f
  let report := Report.ofFormula f satisfying m.allStates
  match state with
  | none => print report.render
  | some id =>
    match report.verdict? id with
    | some verdict => print (verdict.render ++ "\n")
    | none => pure ()

/-- Checks formulas. -/
def runCheck (model : String) (formula formulas state : Option String) : Run Unit := do
  let m ← loadModel model
  let fs ← loadFormulas formula formulas
  let id ← state.mapM (readStateOf m)
  fs.forM (printReport m id)

/-- Runs a suite. It fails unless all cases turn out as expected. -/
def runSuite (model tests : String) : Run Unit := do
  let m ← loadModel model
  let text ← readFile tests
  logAll (Suite.parseLog text)
  let suite ← orFail (.invalidSuite tests) (Suite.parse text)
  logAll (suite.runLog m)
  let report := suite.run m
  print report.render
  if report.allPassed then pure () else throw (.failedCases report.failed suite.cases.length)

/-- Prints a model in its normal form. -/
def runNormalize (model : String) : Run Unit := do
  let m ← loadModel model
  print m.render

/-- Writes a file. -/
def writeFile (path content : String) : Run Unit := do
  let session ← get
  let directory ← orFail (.unwritable path) (session.directory.write path content)
  set { session with directory }

/-- Draws a model. -/
def runDot (model : String) (formula output : Option String) : Run Unit := do
  let m ← loadModel model
  let highlight ← match formula with
    | none => pure StateSet.empty
    | some text => do
      let f ← readFormula text
      checkFormula m f
  let drawing := m.draw {} highlight
  match output with
  | none => print drawing
  | some path => do
    writeFile path drawing
    logInfo ("Wrote DOT to " ++ path)

/-- Carries out an action. -/
def Action.run : Action → Run Unit
  | .check model formula formulas state => runCheck model formula formulas state
  | .suite model tests => runSuite model tests
  | .normalize model => runNormalize model
  | .dot model formula output => runDot model formula output

-- ---------------------------------------------------------------------------
-- Results
-- ---------------------------------------------------------------------------

/-- What came of a command line. -/
structure Result where
  exitCode : Nat
  events : List Event
  errors : List String
  directory : Directory

/-- The text that an event prints. -/
def Event.text? : Event → Option String
  | .print text => some text
  | .log _ => none

/-- The record that an event logs. -/
def Event.record? : Event → Option Log.Record
  | .print _ => none
  | .log record => some record

/-- What an event puts on the standard output. A record takes a line of its own, in
its brief form: the time and the marks that a logger sets around it are left out. -/
def Event.render : Event → String
  | .print text => text
  | .log record => record.renderBrief ++ "\n"

/-- Everything on the standard output, in order. -/
def Result.stdout (r : Result) : String :=
  String.join (r.events.map Event.render)

/-- What was printed, without the log. -/
def Result.printed (r : Result) : String :=
  String.join (r.events.filterMap Event.text?)

/-- What was logged. -/
def Result.log (r : Result) : Log :=
  r.events.filterMap Event.record?

/-- Does a verbosity let an event through? Only log records are held back. -/
def Event.isShownAt (verbosity : Nat) : Event → Bool
  | .print _ => true
  | .log record => record.level.verbosity ≤ verbosity

/-- The answer to a request for the version. -/
def versionText : String :=
  "ctl-check 0.1.0\n"

/-- Carries out a command line in a directory. -/
def run (directory : Directory) (arguments : List String) : Result :=
  match Invocation.ofArguments arguments with
  | .error .usage => { exitCode := 2, events := [], errors := [], directory }
  | .error .help => { exitCode := 0, events := [], errors := [], directory }
  | .error .version => { exitCode := 0, events := [.print versionText], errors := [], directory }
  | .ok invocation =>
    let (outcome, session) := invocation.action.run.run.run { directory }
    let events := session.events.filter (Event.isShownAt invocation.verbosity)
    match outcome with
    | .ok () => { exitCode := 0, events, errors := [], directory := session.directory }
    | .error failure =>
      { exitCode := 1, events, errors := failure.messages, directory := session.directory }

end BranchingTime.Command
