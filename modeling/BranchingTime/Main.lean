import BranchingTime.Command.Run

/-!
# BranchingTime — the program

Reads the files that a command line names, carries the command out, writes the
file that it made and shows what came of it.
-/

namespace BranchingTime.Command

/-- The paths that an action reads. -/
def Action.inputs : Action → List String
  | .check model _ formulas _ => model :: formulas.toList
  | .suite model tests => [model, tests]
  | .normalize model => [model]
  | .dot model _ _ => [model]

/-- The path that an action writes. -/
def Action.target? : Action → Option String
  | .dot _ _ output => output
  | _ => none

/-- The cause behind an error number of the system, which some calls negate. -/
def fileErrorOfCode (code : UInt32) (text : String) : FileError :=
  match min code.toNat (UInt32.size - code.toNat) with
  | 2 => .notFound
  | 20 => .notDirectory
  | 21 => .isDirectory
  | 36 => .nameTooLong
  | number => .system number text

/-- The cause behind an error of the system. -/
def fileErrorOf (e : IO.Error) : FileError :=
  match e with
  | .unexpectedEof | .userError _ => .notText
  | .alreadyExists _ code text | .otherError code text | .resourceBusy code text
  | .resourceVanished code text | .unsupportedOperation code text | .hardwareFault code text
  | .unsatisfiedConstraints code text | .illegalOperation code text | .protocolError code text
  | .timeExpired code text | .interrupted _ code text | .noFileOrDirectory _ code text
  | .invalidArgument _ code text | .permissionDenied _ code text | .resourceExhausted _ code text
  | .inappropriateType _ code text | .noSuchThing _ code text =>
    fileErrorOfCode code text

/-- Reads a file into a directory, or notes why it cannot be read. -/
def loadFile (directory : Directory) (path : String) : IO Directory := do
  try
    return directory.addOutcome path (.ok (← IO.FS.readFile path))
  catch e =>
    return directory.addOutcome path (.error (fileErrorOf e))

/-- Shows what came of a command line: the standard output, and the errors with
their numbers. -/
def Result.present (result : Result) : IO UInt32 := do
  IO.print result.stdout
  for (message, k) in result.errors.zipIdx do
    IO.eprintln s!"{k}: {message}"
  return UInt32.ofNat result.exitCode

/-- Carries out a command line that is well formed. A file that the system
refuses to write fails the command. -/
def carryOut (arguments : List String) (action : Action) : IO UInt32 := do
  let directory ← action.inputs.foldlM loadFile { files := [] }
  match action.target? with
  | none => (run directory arguments).present
  | some path =>
    let directory := directory.addFoldersOf path
    let result := run directory arguments
    match result.exitCode, result.directory.read path with
    | 0, .ok content =>
      try
        IO.FS.writeFile path content
      catch e =>
        let refused := { directory with unwritable := [(path, fileErrorOf e)] }
        return ← (run refused arguments).present
      result.present
    | _, _ => result.present

end BranchingTime.Command

open BranchingTime.Command in
/-- The program. -/
def main (arguments : List String) : IO UInt32 :=
  match Invocation.ofArguments arguments with
  | .ok invocation => carryOut arguments invocation.action
  | .error _ => (run { files := [] } arguments).present
