import BranchingTime.Check.Satisfaction
import BranchingTime.Formula.Parse
import BranchingTime.Formula.Print
import BranchingTime.Text.Line

/-!
# BranchingTime — expectation suites

A suite lists what should hold where: each case names a state, a formula and
whether the formula is expected to hold there. A suite file has a case on each
line, `s1; EF p; true`; blank lines and lines that start with a number sign
are skipped.
-/

namespace BranchingTime

-- ---------------------------------------------------------------------------
-- Cases and faults
-- ---------------------------------------------------------------------------

/-- Whether a formula is expected to hold in a state, and the line that says so. -/
structure Expectation where
  line : Nat
  state : StateId
  formula : Formula
  expected : Bool
deriving DecidableEq, Inhabited

/-- An ordered list of expectations. -/
structure Suite where
  cases : List Expectation
deriving DecidableEq, Inhabited

/-- What is wrong with a line of a suite file. -/
inductive SuiteLineFault where
  | malformedLine
  | invalidState (name : String)
  | invalidExpectation (found : String)
  | formula (text : String) (cause : ParseError)
deriving DecidableEq, Inhabited

/-- The message for a faulty line, without its number. -/
def SuiteLineFault.message : SuiteLineFault → String
  | malformedLine => "expected `<state>; <formula>; <true|false>`"
  | invalidState name => "invalid state name \"" ++ name ++ "\""
  | invalidExpectation found => "expected `true` or `false`, found \"" ++ found ++ "\""
  | formula text cause => "formula \"" ++ text ++ "\" is not well formed: " ++ cause.message

/-- Why a text is not a suite: the first line at fault. -/
structure SuiteError where
  line : Nat
  fault : SuiteLineFault
deriving DecidableEq, Inhabited

/-- The parse error behind this one. -/
def SuiteError.cause? (e : SuiteError) : Option ParseError :=
  match e.fault with
  | .formula _ cause => some cause
  | _ => none

/-- The message for a text that is not a suite. -/
def SuiteError.message (e : SuiteError) : String :=
  "line " ++ toString e.line ++ ": " ++ e.fault.message

namespace Suite

open Text (trim splitBy Line)

-- ---------------------------------------------------------------------------
-- Reading
-- ---------------------------------------------------------------------------

/-- Reads an expectation: `true` or `false` in any letter case. -/
def readExpected? (word : List Char) : Option Bool :=
  if word.map Char.toLower == ['t', 'r', 'u', 'e'] then some true
  else if word.map Char.toLower == ['f', 'a', 'l', 's', 'e'] then some false
  else none

/-- Reads the case of a line. -/
def readCase (line : Line) : Except SuiteLineFault Expectation :=
  match (splitBy (· == ';') line.text).map trim with
  | [stateName, formulaText, expectedWord] =>
    match Ident.ofName? 's' (String.ofList stateName) with
    | none => .error (.invalidState (String.ofList stateName))
    | some state =>
      match readExpected? expectedWord with
      | none => .error (.invalidExpectation (String.ofList expectedWord))
      | some expected =>
        match Formula.parse (String.ofList formulaText) with
        | .error cause => .error (.formula (String.ofList formulaText) cause)
        | .ok formula => .ok { line := line.number, state, formula, expected }
  | _ => .error .malformedLine

/-- The lines of a suite file that hold cases. -/
def caseLines (text : String) : List Line :=
  (Text.filledLines (Text.dropByteOrderMark text.toList)).filter fun line => !line.isComment

/-- What was read from a suite file: the cases before the first line at fault,
and the fault. -/
structure Reading where
  cases : List Expectation
  error? : Option SuiteError

/-- Reads lines up to the first one at fault, after the cases `seen` so far
(the latest first). -/
def readLines (seen : List Expectation) : List Line → Reading
  | [] => { cases := seen.reverse, error? := none }
  | line :: rest =>
    match readCase line with
    | .ok found => readLines (found :: seen) rest
    | .error fault => { cases := seen.reverse, error? := some { line := line.number, fault } }

/-- Reads a suite file as far as it is correct. -/
def read (text : String) : Reading :=
  readLines [] (caseLines text)

/-- Reads a suite file. -/
def parse (text : String) : Except SuiteError Suite :=
  let reading := read text
  match reading.error? with
  | none => .ok { cases := reading.cases }
  | some e => .error e

/-- The records of reading a suite file: one for each formula, up to the first
fault, and one for the whole if there is none. -/
def parseLog (text : String) : Log :=
  let reading := read text
  reading.cases.flatMap (·.formula.parsedLog) ++
    match reading.error? with
    | some _ => []
    | none =>
      [{ level := .debug
         topic := .suites
         message := s!"parsed suite with {reading.cases.length} cases" }]

-- ---------------------------------------------------------------------------
-- Running
-- ---------------------------------------------------------------------------

/-- What came of a case. -/
inductive Outcome where
  /-- The formula holds, or does not hold, as expected. -/
  | passed (holds : Bool)
  /-- The formula holds, or does not hold, against the expectation. -/
  | failed (holds : Bool)
  /-- The model does not have the state. -/
  | unknownState
deriving DecidableEq, Inhabited

/-- Whether the formula holds, if that was found out. -/
def Outcome.holds? : Outcome → Option Bool
  | passed holds => some holds
  | failed holds => some holds
  | unknownState => none

/-- A case and what came of it. -/
structure Finding where
  given : Expectation
  outcome : Outcome
deriving DecidableEq, Inhabited

/-- Did the case turn out as expected? -/
def Finding.isPassed (r : Finding) : Bool :=
  match r.outcome with
  | .passed _ => true
  | _ => false

/-- How a finding says whether a formula holds. -/
def verdictPhrase (holds : Bool) : String :=
  if holds then "holds" else "does not hold"

/-- The text of a finding. -/
def Finding.render (r : Finding) : String :=
  let formula := r.given.formula.render
  let state := r.given.state.name
  match r.outcome with
  | .passed holds =>
    "✅ passed model checking - " ++ formula ++ " " ++ verdictPhrase holds ++ " for " ++ state
  | .failed holds =>
    "❌ failed model checking - " ++ formula ++ " " ++ verdictPhrase holds ++ " for " ++ state ++
      ", expected it to " ++ (if r.given.expected then "hold" else "not hold")
  | .unknownState =>
    "❌ failed model checking - state " ++ state ++ " (line " ++ toString r.given.line ++
      ") is not in the model"

/-- Checks one case. -/
def runCase (m : Model) (c : Expectation) : Finding :=
  if m.contains c.state then
    let holds := m.holdsIn c.formula c.state
    { given := c, outcome := if holds == c.expected then .passed holds else .failed holds }
  else
    { given := c, outcome := .unknownState }

/-- What came of a suite, in the order of its cases. -/
structure Findings where
  all : List Finding
deriving DecidableEq, Inhabited

/-- Checks every case. -/
def run (s : Suite) (m : Model) : Findings :=
  { all := s.cases.map (runCase m) }

namespace Findings

/-- The number of cases that turned out as expected. -/
def passed (r : Findings) : Nat :=
  r.all.countP Finding.isPassed

/-- The number of all other cases. -/
def failed (r : Findings) : Nat :=
  r.all.length - r.passed

/-- Did every case turn out as expected? -/
def allPassed (r : Findings) : Bool :=
  r.all.all Finding.isPassed

/-- The findings on the cases that did not turn out as expected. -/
def failures (r : Findings) : List Finding :=
  r.all.filter fun finding => !finding.isPassed

/-- The last line of a report. -/
def summary (r : Findings) : String :=
  toString r.passed ++ " passed, " ++ toString r.failed ++ " failed"

/-- The text of a report: a line for each case, and the summary. -/
def render (r : Findings) : String :=
  String.join (r.all.map fun finding => finding.render ++ "\n") ++ r.summary ++ "\n"

end Findings

/-- The records of running a suite. -/
def runLog (s : Suite) (m : Model) : Log :=
  s.cases.flatMap (fun c => m.holdsInLog c.formula c.state) ++
    [{ level := .info
       topic := .suites
       message := "suite finished: " ++ (s.run m).summary }]

end Suite

end BranchingTime
