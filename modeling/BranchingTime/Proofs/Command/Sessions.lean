import BranchingTime.Command.Run

/-!
# BranchingTime — running pieces of a command

A piece of a command is run from a session, and ends with a value or a failure
and with the session as it has become. Each piece has one lemma that says what it
prints and what it comes to, from every session in a directory; a longer piece is
then run part by part.

## Results

* `Prints.bind`, `Prints.mapM`, `Prints.forM` — what a piece prints and comes to,
  from its parts.
* `prints_loadModel` — reading a model file only logs.
* `run_of_prints` — exit code and output of a command line, from its action.
* `exitCode_run_suite` — the exit code of a suite whose files parse.
-/

namespace BranchingTime.Command

variable {α β : Type} {d : Directory}

-- ---------------------------------------------------------------------------
-- Events
-- ---------------------------------------------------------------------------

/-- The text that events print, one after the other. -/
def printedText (events : List Event) : String :=
  String.join (events.filterMap Event.text?)

theorem printedText_append (events others : List Event) :
    printedText (events ++ others) = printedText events ++ printedText others := by
  rw [printedText, List.filterMap_append, String.join_append]
  rfl

theorem printedText_log (log : Log) : printedText (log.map .log) = "" := by
  have hNone : (log.map Event.log).filterMap Event.text? = [] := by
    rw [List.filterMap_map, List.filterMap_eq_nil_iff]
    exact fun _ _ => rfl
  rw [printedText, hNone, String.join_nil]

/-- Only log records are held back. -/
theorem printedText_filter (verbosity : Nat) (events : List Event) :
    printedText (events.filter (Event.isShownAt verbosity)) = printedText events := by
  have hText (event : Event) :
      (if event.isShownAt verbosity = true then event.text? else none) = event.text? := by
    cases event with
    | print text => rfl
    | log record => exact ite_self none
  rw [printedText, List.filterMap_filter, printedText]
  exact congrArg (fun text? => String.join (events.filterMap text?)) (funext hText)

/-- Without a flag that asks for records, none is shown. -/
theorem isShownAt_zero_log (record : Log.Record) : (Event.log record).isShownAt 0 = false := by
  obtain ⟨level, topic, message⟩ := record
  cases level <;> rfl

/-- What is shown then is what is printed. -/
theorem join_render_filter_zero (events : List Event) :
    String.join ((events.filter (Event.isShownAt 0)).map Event.render) = printedText events := by
  induction events with
  | nil => rfl
  | cons event rest ih =>
    cases event with
    | print text =>
      rw [List.filter_cons_of_pos rfl, List.map_cons, String.join_cons, ih]
      exact String.join_cons.symm
    | log record =>
      have hHidden : ¬ (Event.log record).isShownAt 0 = true := by
        rw [isShownAt_zero_log]
        exact Bool.false_ne_true
      rw [List.filter_cons_of_neg hHidden, ih]
      rfl

/-- The session after some more events. -/
def Session.letOut (session : Session) (events : List Event) : Session :=
  { session with events := session.events ++ events }

theorem letOut_nil (session : Session) : session.letOut [] = session := by
  rw [Session.letOut, List.append_nil]

theorem letOut_letOut (session : Session) (events others : List Event) :
    (session.letOut events).letOut others = session.letOut (events ++ others) := by
  simp only [Session.letOut, List.append_assoc]

-- ---------------------------------------------------------------------------
-- Printing
-- ---------------------------------------------------------------------------

/-- In a directory, the piece prints `text` and comes to `outcome`, from every
session on. -/
def Prints (d : Directory) (piece : Run α) (text : String) (outcome : Except Failure α) : Prop :=
  ∀ session : Session, session.directory = d →
    ∃ events, printedText events = text ∧ piece.run.run session = (outcome, session.letOut events)

theorem prints_pure (value : α) : Prints d (pure value) "" (.ok value) := by
  intro session _
  refine ⟨[], rfl, ?_⟩
  rw [letOut_nil]
  rfl

theorem prints_throw (failure : Failure) :
    Prints d (throw failure : Run α) "" (.error failure) := by
  intro session _
  refine ⟨[], rfl, ?_⟩
  rw [letOut_nil]
  rfl

theorem prints_print (text : String) : Prints d (print text) text (.ok ()) := by
  intro session _
  refine ⟨[.print text], ?_, rfl⟩
  show String.join [text] = text
  rw [String.join_cons, String.join_nil, String.append_empty]

theorem prints_logAll (log : Log) : Prints d (logAll log) "" (.ok ()) := by
  intro session _
  exact ⟨log.map .log, printedText_log log, rfl⟩

theorem prints_orFail {ε : Type} (failure : ε → Failure) (result : Except ε α) :
    Prints d (orFail failure result) "" (result.mapError failure) := by
  cases result with
  | ok value => exact prints_pure value
  | error e => exact prints_throw (failure e)

theorem prints_readFile {path text : String} (h : d.read path = .ok text) :
    Prints d (readFile path) "" (.ok text) := by
  rintro session rfl
  refine ⟨[], rfl, ?_⟩
  show (orFail (.unreadable path) (session.directory.read path)).run.run session = _
  rw [letOut_nil, h]
  rfl

theorem Prints.bind_ok {piece : Run α} {rest : α → Run β} {text text' : String} {value : α}
    {outcome : Except Failure β} (h : Prints d piece text (.ok value))
    (h' : Prints d (rest value) text' outcome) :
    Prints d (piece >>= rest) (text ++ text') outcome := by
  intro session hDirectory
  obtain ⟨events, rfl, hRun⟩ := h session hDirectory
  obtain ⟨others, rfl, hRest⟩ := h' (session.letOut events) hDirectory
  refine ⟨events ++ others, printedText_append events others, ?_⟩
  rw [ExceptT.run_bind, StateT.run_bind, hRun, ← letOut_letOut]
  exact hRest

/-- A piece that prints nothing leaves the printing to what follows it. -/
theorem Prints.bind_quiet {piece : Run α} {rest : α → Run β} {text : String} {value : α}
    {outcome : Except Failure β} (h : Prints d piece "" (.ok value))
    (h' : Prints d (rest value) text outcome) : Prints d (piece >>= rest) text outcome := by
  have hBoth := h.bind_ok h'
  rwa [String.empty_append] at hBoth

/-- A failure ends the whole piece. -/
theorem Prints.bind_error {piece : Run α} {text : String} {failure : Failure}
    (h : Prints d piece text (.error failure)) (rest : α → Run β) :
    Prints d (piece >>= rest) text (.error failure) := by
  intro session hDirectory
  obtain ⟨events, hText, hRun⟩ := h session hDirectory
  refine ⟨events, hText, ?_⟩
  rw [ExceptT.run_bind, StateT.run_bind, hRun]
  rfl

/-- Pieces that print nothing come to what their outcomes come to one after the
other. -/
theorem Prints.bind {piece : Run α} {rest : α → Run β} {outcome : Except Failure α}
    {final : α → Except Failure β} (h : Prints d piece "" outcome)
    (hRest : ∀ value, Prints d (rest value) "" (final value)) :
    Prints d (piece >>= rest) "" (outcome >>= final) := by
  cases outcome with
  | error failure => exact h.bind_error rest
  | ok value => exact h.bind_quiet (hRest value)

theorem Prints.mapM {γ : Type} {piece : γ → Run α} {outcome : γ → Except Failure α}
    (h : ∀ x, Prints d (piece x) "" (outcome x)) (xs : List γ) :
    Prints d (xs.mapM piece) "" (xs.mapM outcome) := by
  induction xs with
  | nil => exact prints_pure []
  | cons x rest ih =>
    rw [List.mapM_cons, List.mapM_cons]
    exact (h x).bind fun y => ih.bind fun ys => prints_pure (y :: ys)

/-- A loop whose rounds all succeed prints what its rounds print. -/
theorem Prints.forM {γ : Type} {body : γ → Run Unit} {text : γ → String} {xs : List γ}
    (h : ∀ x ∈ xs, Prints d (body x) (text x) (.ok ())) :
    Prints d (xs.forM body) (String.join (xs.map text)) (.ok ()) := by
  induction xs with
  | nil => exact prints_pure ()
  | cons x rest ih =>
    obtain ⟨hFirst, hRest⟩ := List.forall_mem_cons.mp h
    rw [List.map_cons, String.join_cons]
    exact hFirst.bind_ok (ih hRest)

theorem prints_loadModel {path text : String} (h : d.read path = .ok text) :
    Prints d (loadModel path) "" ((Model.parse text).mapError (.invalidModel path)) := by
  refine (prints_readFile h).bind_quiet ((prints_logAll _).bind_quiet ?_)
  cases Model.parse text with
  | error e => exact (prints_throw _).bind_error _
  | ok m => exact (prints_pure m).bind_quiet ((prints_logAll _).bind_quiet (prints_pure m))

/-- What a command line prints and its exit code are those of its action. Only log
records depend on the verbosity; if no flag asks for them, what is printed is all
of the standard output. -/
theorem run_of_prints {arguments : List String} {invocation : Invocation} {text : String}
    {outcome : Except Failure Unit} (hArguments : Invocation.ofArguments arguments = .ok invocation)
    (h : Prints d invocation.action.run text outcome) :
    (run d arguments).exitCode = (if outcome.isOk then 0 else 1) ∧
      (run d arguments).printed = text ∧
      (invocation.verbosity = 0 → (run d arguments).stdout = text) := by
  obtain ⟨events, rfl, hRun⟩ := h { directory := d } rfl
  simp only [run, hArguments, hRun]
  have hPrinted := printedText_filter invocation.verbosity events
  have hStdout (hQuiet : invocation.verbosity = 0) :
      String.join ((events.filter (Event.isShownAt invocation.verbosity)).map Event.render) =
        printedText events := by
    rw [hQuiet, join_render_filter_zero]
  cases outcome with
  | ok _ => exact ⟨rfl, hPrinted, hStdout⟩
  | error failure => exact ⟨rfl, hPrinted, hStdout⟩

-- ---------------------------------------------------------------------------
-- Suites
-- ---------------------------------------------------------------------------

theorem prints_runSuite {modelPath suitePath modelText suiteText : String} {m : Model} {s : Suite}
    (hModelRead : d.read modelPath = .ok modelText) (hModel : Model.parse modelText = .ok m)
    (hSuiteRead : d.read suitePath = .ok suiteText) (hSuite : Suite.parse suiteText = .ok s) :
    Prints d (runSuite modelPath suitePath) (s.run m).render
      (if (s.run m).allPassed then .ok ()
        else .error (.failedCases (s.run m).failed s.cases.length)) := by
  have hLoad := prints_loadModel hModelRead
  rw [hModel] at hLoad
  refine hLoad.bind_quiet ((prints_readFile hSuiteRead).bind_quiet ?_)
  refine (prints_logAll _).bind_quiet ?_
  rw [hSuite]
  refine (prints_orFail _ _).bind_quiet ((prints_logAll _).bind_quiet ?_)
  rw [← String.append_empty (s := (s.run m).render)]
  refine (prints_print _).bind_ok ?_
  split
  · exact prints_pure ()
  · exact prints_throw _

theorem exitCode_run_suite {directory : Directory} {arguments : List String}
    {invocation : Invocation} {modelPath suitePath modelText suiteText : String} {m : Model}
    {s : Suite} (hArguments : Invocation.ofArguments arguments = .ok invocation)
    (hAction : invocation.action = .suite modelPath suitePath)
    (hModelRead : directory.read modelPath = .ok modelText)
    (hModel : Model.parse modelText = .ok m)
    (hSuiteRead : directory.read suitePath = .ok suiteText)
    (hSuite : Suite.parse suiteText = .ok s) :
    (run directory arguments).exitCode = if (s.run m).allPassed then 0 else 1 := by
  have hPrints := prints_runSuite hModelRead hModel hSuiteRead hSuite
  rw [← Action.run, ← hAction] at hPrints
  rw [(run_of_prints hArguments hPrints).1]
  cases (s.run m).allPassed with
  | true => rfl
  | false => rfl

end BranchingTime.Command
