/-!
# BranchingTime — command-line arguments

    [-v]... check -k FILE [-a FORMULA | -f FILE] [-s STATE]
    [-v]... suite -k FILE -t FILE
    [-v]... show -k FILE
    [-v]... dot -k FILE [-a FORMULA] [-o FILE]

A value follows its option as the next argument, or in the same argument: after
an equals sign for a long name, with or without one for a letter. Letters of
options without a value may be run together. A value that looks like an option
has to be given in the same argument. Every option with a value may be given
once; `-v` may be given often, before or after the subcommand.
-/

namespace BranchingTime.Command

-- ---------------------------------------------------------------------------
-- Options and subcommands
-- ---------------------------------------------------------------------------

/-- An option with a value. -/
inductive Opt where
  | model
  | formula
  | formulas
  | state
  | tests
  | output
deriving DecidableEq, Inhabited

/-- The letter of an option. -/
def Opt.letter : Opt → Char
  | model => 'k'
  | formula => 'a'
  | formulas => 'f'
  | state => 's'
  | tests => 't'
  | output => 'o'

/-- The long name of an option. -/
def Opt.name : Opt → String
  | model => "model"
  | formula => "formula"
  | formulas => "formulas"
  | state => "state"
  | tests => "tests"
  | output => "output"

/-- Is the value the path of a file? A path is not empty. -/
def Opt.isPath : Opt → Bool
  | model => true
  | formula => false
  | formulas => true
  | state => false
  | tests => true
  | output => true

/-- What the program can do. -/
inductive Subcommand where
  | check
  | suite
  | normalize
  | dot
deriving DecidableEq, Inhabited

/-- The subcommands and their names. -/
def subcommands : List (String × Subcommand) :=
  [("check", .check), ("suite", .suite), ("show", .normalize), ("dot", .dot)]

/-- The options that a subcommand knows. -/
def Subcommand.options : Subcommand → List Opt
  | check => [.model, .formula, .formulas, .state]
  | suite => [.model, .tests]
  | normalize => [.model]
  | dot => [.model, .formula, .output]

/-- What to do, with the values of the options. -/
inductive Action where
  | check (model : String) (formula formulas state : Option String)
  | suite (model tests : String)
  | normalize (model : String)
  | dot (model : String) (formula output : Option String)
deriving DecidableEq, Inhabited

/-- A command line that can be carried out. -/
structure Invocation where
  verbosity : Nat
  action : Action
deriving DecidableEq, Inhabited

/-- Why there is nothing to carry out. -/
inductive Stop where
  /-- The arguments are wrong. -/
  | usage
  /-- Help was asked for. -/
  | help
  /-- The version was asked for. -/
  | version
deriving DecidableEq, Inhabited

-- ---------------------------------------------------------------------------
-- Reading arguments
-- ---------------------------------------------------------------------------

/-- The options read so far. -/
structure Settings where
  /-- How often `-v` was given. -/
  verbosity : Nat := 0
  values : List (Opt × String) := []
  /-- An option that waits for its value. -/
  pending : Option Opt := none
  /-- Have the options been ended by a double hyphen? -/
  ended : Bool := false

namespace Settings

/-- The value of an option. -/
def value? (s : Settings) (opt : Opt) : Option String :=
  s.values.lookup opt

/-- Gives an option its value. -/
def assign (s : Settings) (opt : Opt) (value : String) : Except Stop Settings :=
  if (s.value? opt).isSome || (opt.isPath && value == "") then
    .error .usage
  else
    .ok { s with values := (opt, value) :: s.values, pending := none }

/-- Counts a `-v`. -/
def louder (s : Settings) : Settings :=
  { s with verbosity := s.verbosity + 1 }

end Settings

/-- What may stand in front of a subcommand, or after one. -/
structure Scope where
  options : List Opt
  /-- Can the version be asked for? -/
  hasVersion : Bool

/-- The arguments before the subcommand. -/
def Scope.outer : Scope :=
  { options := [], hasVersion := true }

/-- The arguments after a subcommand. -/
def Scope.inner (subcommand : Subcommand) : Scope :=
  { options := subcommand.options, hasVersion := false }

/-- Reads the letters of an argument such as `-vk`. -/
def readLetters (scope : Scope) (s : Settings) : List Char → Except Stop Settings
  | [] => .ok s
  | c :: rest =>
    if c == 'v' then readLetters scope s.louder rest
    else if c == 'h' then .error .help
    else if c == 'V' && scope.hasVersion then .error .version
    else
      match scope.options.find? (·.letter == c) with
      | none => .error .usage
      | some opt =>
        match rest with
        | [] => .ok { s with pending := some opt }
        | '=' :: value => s.assign opt (String.ofList value)
        | value => s.assign opt (String.ofList value)

/-- Reads a long option, given without its hyphens. -/
def readLong (scope : Scope) (s : Settings) (text : List Char) : Except Stop Settings :=
  let name := String.ofList (text.takeWhile (· != '='))
  let value? :=
    match text.dropWhile (· != '=') with
    | [] => none
    | _ :: value => some (String.ofList value)
  match scope.options.find? (·.name == name), value? with
  | some opt, some value => s.assign opt value
  | some opt, none => .ok { s with pending := some opt }
  | none, some _ => .error .usage
  | none, none =>
    if name == "verbose" then .ok s.louder
    else if name == "help" then .error .help
    else if name == "version" && scope.hasVersion then .error .version
    else .error .usage

/-- What an argument is, going by its first characters. -/
inductive Shape where
  | plain
  | ending
  | long (text : List Char)
  | letters (text : List Char)

/-- The shape of an argument. A single hyphen is plain. -/
def Shape.ofArgument (argument : String) : Shape :=
  match argument.toList with
  | ['-', '-'] => .ending
  | '-' :: '-' :: text => .long text
  | ['-'] => .plain
  | '-' :: text => .letters text
  | _ => .plain

/-- Reads one argument that is not a subcommand. -/
def readArgument (scope : Scope) (s : Settings) (argument : String) : Except Stop Settings :=
  if s.ended then
    .error .usage
  else
    match s.pending, Shape.ofArgument argument with
    | some opt, .plain => s.assign opt argument
    | some _, _ => .error .usage
    | none, .plain => .error .usage
    | none, .ending => .ok { s with ended := true }
    | none, .long text => readLong scope s text
    | none, .letters text => readLetters scope s text

/-- Turns the options of a subcommand into an action. -/
def Settings.action (s : Settings) (subcommand : Subcommand) : Except Stop Action :=
  match s.pending, s.value? .model with
  | none, some model =>
    match subcommand with
    | .check =>
      if (s.value? .formula).isSome && (s.value? .formulas).isSome then
        .error .usage
      else
        .ok (.check model (s.value? .formula) (s.value? .formulas) (s.value? .state))
    | .suite =>
      match s.value? .tests with
      | some tests => .ok (.suite model tests)
      | none => .error .usage
    | .normalize => .ok (.normalize model)
    | .dot => .ok (.dot model (s.value? .formula) (s.value? .output))
  | _, _ => .error .usage

/-- Reads what follows a subcommand; `outer` are the options before it. A `-v`
after the subcommand counts in place of those before it. -/
def readInvocation (outer : Settings) (subcommand : Subcommand) (arguments : List String) :
    Except Stop Invocation := do
  let inner ← arguments.foldlM (readArgument (Scope.inner subcommand)) {}
  let action ← inner.action subcommand
  let verbosity := if inner.verbosity == 0 then outer.verbosity else inner.verbosity
  return { verbosity, action }

/-- Reads a request for help, `help` or `help check`. -/
def readHelp (arguments : List String) : Stop :=
  match arguments with
  | [] => .help
  | [name] => if name == "help" || (subcommands.lookup name).isSome then .help else .usage
  | _ => .usage

/-- Reads the arguments up to the subcommand, and what follows it. -/
def readArguments (s : Settings) : List String → Except Stop Invocation
  | [] => .error .usage
  | argument :: rest =>
    match subcommands.lookup argument with
    | some subcommand => if s.ended then .error .usage else readInvocation s subcommand rest
    | none =>
      if argument == "help" && !s.ended then .error (readHelp rest)
      else
        match readArgument Scope.outer s argument with
        | .ok s' => readArguments s' rest
        | .error stop => .error stop

/-- Reads a command line. -/
def Invocation.ofArguments (arguments : List String) : Except Stop Invocation :=
  readArguments {} arguments

end BranchingTime.Command
