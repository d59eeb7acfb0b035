/-!
# BranchingTime — log records

What the library reports about its own work. Records are data: each operation
has a companion that lists the records of one run, in order, and the outer
layer decides which of them to show.
-/

namespace BranchingTime

namespace Log

/-- How detailed a record is. -/
inductive Level where
  | info
  | debug
  | trace
deriving DecidableEq, Inhabited

/-- The name of a level. -/
def Level.name : Level → String
  | .info => "INFO"
  | .debug => "DEBUG"
  | .trace => "TRACE"

/-- The verbosity from which on a level is shown. -/
def Level.verbosity : Level → Nat
  | .info => 1
  | .debug => 2
  | .trace => 3

/-- The part of the program that a record is about. -/
inductive Topic where
  | formulas
  | models
  | modelTexts
  | checking
  | suites
  | command
deriving DecidableEq, Inhabited

/-- The name of a topic in the log. -/
def Topic.name : Topic → String
  | .formulas => "ctl_check::parser"
  | .models => "ctl_check::kripke"
  | .modelTexts => "ctl_check::format"
  | .checking => "ctl_check::checker"
  | .suites => "ctl_check::suite"
  | .command => "ctl_check"

/-- One entry of the log. -/
structure Record where
  level : Level
  topic : Topic
  message : String
deriving DecidableEq, Inhabited

/-- A record with its level and topic. -/
def Record.render (r : Record) : String :=
  r.level.name ++ " " ++ r.topic.name ++ ": " ++ r.message

/-- A record as the command line shows it: records of level `info` go without
their topic. -/
def Record.renderBrief (r : Record) : String :=
  match r.level with
  | .info => r.level.name ++ " " ++ r.message
  | _ => r.render

end Log

/-- Records in the order in which they arose. -/
abbrev Log := List Log.Record

end BranchingTime
