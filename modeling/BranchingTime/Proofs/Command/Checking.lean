import BranchingTime.Proofs.Command.Sessions
import BranchingTime.Proofs.Check.Predecessors
import BranchingTime.Proofs.Model.Reading
import BranchingTime.Proofs.Report
import BranchingTime.Proofs.Result

/-!
# BranchingTime — the command that checks formulas

The command takes four inputs, a model, formulas from an argument or from a file,
and the name of a state, any of which may be wrong. It looks at all of them
before it prints anything: the pieces that read input only log. What is printed
after that cannot fail. So a formula that does not parse on the last line of a
file leaves nothing behind of the formulas above it.

## Results

* `formulaLines_eq` — the lines of a formula file that count.
* `prints_readRequest` — reading the input prints nothing.
* `prints_reports` — what is printed after that.
* `run_check_all_or_nothing` — exit code and output of the command.
-/

namespace BranchingTime.Command

open Text (trim)

variable {d : Directory}

-- ---------------------------------------------------------------------------
-- Reading the input
-- ---------------------------------------------------------------------------

/-- The lines of a text that are neither blank nor comments, trimmed. -/
def formulaTextsOf (text : String) : List String :=
  ((((text.toList.splitOn '\n').map trim).filter fun line => line != []).filter
    fun line => line.head? != some '#').map String.ofList

theorem formulaLines_eq (text : String) : formulaLines text = formulaTextsOf text := by
  have hFilled : (Text.filledLines text.toList).map Text.Line.text =
      ((text.toList.splitOn '\n').map trim).filter fun line => line != [] := by
    rw [Text.map_text_filledLines_eq_splitOn, List.filter_map]
    congr 1
    refine List.filter_congr fun piece _ => ?_
    rw [← Text.isEmpty_trim, Function.comp_apply]
    cases trim piece <;> rfl
  rw [formulaLines, formulaTextsOf, ← hFilled, List.filter_map, List.map_map]
  rfl

/-- The texts of the formulas to be checked: the argument, else what the file holds.
There are none if neither is given. -/
def formulaTexts? (formula fileText : Option String) : Option (List String) :=
  match formula, fileText with
  | some text, _ => some [text]
  | none, some text => some (formulaTextsOf text)
  | none, none => none

/-- What reading the formulas comes to. -/
def formulasOutcome (texts? : Option (List String)) : Except Failure (List Formula) :=
  match texts? with
  | none => .error .missingFormula
  | some texts => texts.mapM fun text => (Formula.parse text).mapError (.invalidFormula text)

/-- What reading the name of a state comes to. -/
def stateOutcome (m : Model) (name : String) : Except Failure StateId :=
  match Ident.ofName? 's' name with
  | none => .error (.invalidState name)
  | some id => if m.contains id then .ok id else .error (.unknownState id)

theorem prints_readFormula (text : String) :
    Prints d (readFormula text) "" ((Formula.parse text).mapError (.invalidFormula text)) :=
  (prints_logAll _).bind_quiet (prints_orFail _ _)

theorem prints_loadFormulas {formula formulas fileText : Option String}
    (h : formulas.mapM d.read = .ok fileText) :
    Prints d (loadFormulas formula formulas) ""
      (formulasOutcome (formulaTexts? formula fileText)) := by
  cases formula with
  | some text => exact (prints_readFormula text).bind fun f => prints_pure [f]
  | none =>
    cases formulas with
    | none =>
      cases h
      exact prints_throw .missingFormula
    | some path =>
      obtain ⟨text, hRead, hText⟩ := bind_eq_ok_iff.mp h
      cases hText
      rw [loadFormulas, formulaTexts?, formulasOutcome, ← formulaLines_eq]
      exact (prints_readFile hRead).bind_quiet (Prints.mapM prints_readFormula _)

theorem prints_readStateOf (m : Model) (name : String) :
    Prints d (readStateOf m name) "" (stateOutcome m name) := by
  unfold readStateOf stateOutcome
  cases Ident.ofName? 's' name with
  | none => exact prints_throw _
  | some id =>
    dsimp only
    split
    · exact prints_pure id
    · exact prints_throw _

-- ---------------------------------------------------------------------------
-- Requests
-- ---------------------------------------------------------------------------

/-- What the command is asked for, after all of its input has been read. -/
structure Request where
  model : Model
  formulas : List Formula
  state : Option StateId

/-- Good input stands for a request. -/
structure Request.IsFor (q : Request) (modelText : String) (texts? : Option (List String))
    (state : Option String) : Prop where
  model : Model.parse modelText = .ok q.model
  formulas : ∃ texts, texts? = some texts ∧
    List.Forall₂ (fun text f => Formula.parse text = .ok f) texts q.formulas
  state : Option.Rel (fun name id => Ident.ofName? 's' name = some id ∧ q.model.contains id = true)
    state q.state

/-- The part of the command that reads. -/
def readRequest (model : String) (formula formulas state : Option String) : Run Request := do
  let m ← loadModel model
  let fs ← loadFormulas formula formulas
  let id ← state.mapM (readStateOf m)
  return ⟨m, fs, id⟩

/-- What reading all of the input comes to. -/
def requestOutcome (path modelText : String) (texts? : Option (List String))
    (state : Option String) : Except Failure Request := do
  let m ← (Model.parse modelText).mapError (.invalidModel path)
  let fs ← formulasOutcome texts?
  let id ← state.mapM (stateOutcome m)
  return ⟨m, fs, id⟩

theorem runCheck_eq (model : String) (formula formulas state : Option String) :
    runCheck model formula formulas state =
      readRequest model formula formulas state >>= fun q =>
        q.formulas.forM (printReport q.model q.state) := by
  simp only [runCheck, readRequest, bind_assoc, pure_bind]

theorem prints_mapM_readStateOf (m : Model) (state : Option String) :
    Prints d (state.mapM (readStateOf m)) "" (state.mapM (stateOutcome m)) := by
  cases state with
  | none => exact prints_pure none
  | some name => exact (prints_readStateOf m name).bind fun id => prints_pure (some id)

/-- Reading the input prints nothing, whether or not the input is good. -/
theorem prints_readRequest {model modelText : String} {formula formulas fileText : Option String}
    (hModel : d.read model = .ok modelText) (hFormulas : formulas.mapM d.read = .ok fileText)
    (state : Option String) :
    Prints d (readRequest model formula formulas state) ""
      (requestOutcome model modelText (formulaTexts? formula fileText) state) :=
  (prints_loadModel hModel).bind fun m =>
    (prints_loadFormulas hFormulas).bind fun fs =>
      (prints_mapM_readStateOf m state).bind fun id => prints_pure (Request.mk m fs id)

theorem formulasOutcome_eq_ok_iff {texts? : Option (List String)} {fs : List Formula} :
    formulasOutcome texts? = .ok fs ↔
      ∃ texts, texts? = some texts ∧
        List.Forall₂ (fun text f => Formula.parse text = .ok f) texts fs := by
  cases texts? with
  | none => simp [formulasOutcome]
  | some texts => simp only [formulasOutcome, mapM_eq_ok_iff, mapError_eq_ok_iff, Option.some.injEq,
      exists_eq_left']

theorem stateOutcome_eq_ok_iff {m : Model} {name : String} {id : StateId} :
    stateOutcome m name = .ok id ↔ Ident.ofName? 's' name = some id ∧ m.contains id = true := by
  unfold stateOutcome
  cases Ident.ofName? 's' name with
  | none => simp
  | some found =>
    dsimp only
    split
    case isTrue hIn =>
      rw [Except.ok.injEq, Option.some.injEq]
      exact ⟨fun h => ⟨h, h ▸ hIn⟩, And.left⟩
    case isFalse hOut =>
      refine iff_of_false nofun ?_
      rintro ⟨hFound, hIn⟩
      cases hFound
      exact hOut hIn

theorem mapM_stateOutcome_eq_ok_iff {m : Model} {state : Option String} {id? : Option StateId} :
    state.mapM (stateOutcome m) = .ok id? ↔
      Option.Rel (fun name id => Ident.ofName? 's' name = some id ∧ m.contains id = true)
        state id? := by
  simp only [← stateOutcome_eq_ok_iff]
  cases state with
  | none =>
    constructor
    · intro h
      cases h
      exact .none
    · intro h
      cases h
      rfl
  | some name =>
    constructor
    · intro h
      obtain ⟨id, hName, hResult⟩ := bind_eq_ok_iff.mp h
      cases hResult
      exact .some hName
    · intro h
      cases h with
      | some hName => exact bind_eq_ok_iff.mpr ⟨_, hName, rfl⟩

theorem requestOutcome_eq_ok_iff {path modelText : String} {texts? : Option (List String)}
    {state : Option String} {q : Request} :
    requestOutcome path modelText texts? state = .ok q ↔ q.IsFor modelText texts? state := by
  constructor
  · intro h
    obtain ⟨m, hModel, h⟩ := bind_eq_ok_iff.mp h
    obtain ⟨fs, hFormulas, h⟩ := bind_eq_ok_iff.mp h
    obtain ⟨id?, hState, h⟩ := bind_eq_ok_iff.mp h
    cases h
    exact ⟨mapError_eq_ok_iff.mp hModel, formulasOutcome_eq_ok_iff.mp hFormulas,
      mapM_stateOutcome_eq_ok_iff.mp hState⟩
  · rintro ⟨hModel, hFormulas, hState⟩
    refine bind_eq_ok_iff.mpr ⟨q.model, mapError_eq_ok_iff.mpr hModel, ?_⟩
    refine bind_eq_ok_iff.mpr ⟨q.formulas, formulasOutcome_eq_ok_iff.mpr hFormulas, ?_⟩
    exact bind_eq_ok_iff.mpr ⟨q.state, mapM_stateOutcome_eq_ok_iff.mpr hState, rfl⟩

/-- The command takes its input: the model parses, there are formulas and each of
them parses, and the name, if one is given, is that of a state of the model. -/
def IsAccepted (modelText : String) (texts? : Option (List String)) (state : Option String) :
    Prop :=
  ∃ m, Model.parse modelText = .ok m ∧
    (∃ texts, texts? = some texts ∧ ∀ text ∈ texts, ∃ f, Formula.parse text = .ok f) ∧
    ∀ name, state = some name → ∃ id, Ident.ofName? 's' name = some id ∧ m.contains id = true

theorem isAccepted_iff_exists_request {modelText : String} {texts? : Option (List String)}
    {state : Option String} :
    IsAccepted modelText texts? state ↔ ∃ q : Request, q.IsFor modelText texts? state := by
  constructor
  · rintro ⟨m, hModel, ⟨texts, hTexts, hParse⟩, hState⟩
    obtain ⟨fs, hFormulas⟩ := exists_mapM_eq_ok_iff.mpr hParse
    have hFormulas := mapM_eq_ok_iff.mp hFormulas
    cases state with
    | none => exact ⟨⟨m, fs, none⟩, hModel, ⟨texts, hTexts, hFormulas⟩, .none⟩
    | some name =>
      obtain ⟨id, hId⟩ := hState name rfl
      exact ⟨⟨m, fs, some id⟩, hModel, ⟨texts, hTexts, hFormulas⟩, .some hId⟩
  · rintro ⟨⟨m, fs, id?⟩, hModel, ⟨texts, hTexts, hFormulas⟩, hState⟩
    refine ⟨m, hModel, ⟨texts, hTexts, ?_⟩, ?_⟩
    · exact exists_mapM_eq_ok_iff.mp ⟨fs, mapM_eq_ok_iff.mpr hFormulas⟩
    · rintro name rfl
      cases hState with
      | some hId => exact ⟨_, hId⟩

-- ---------------------------------------------------------------------------
-- Answering
-- ---------------------------------------------------------------------------

/-- The line that says whether the checker finds `s` to satisfy `f`. -/
def verdictLine (m : Model) (f : Formula) (s : StateId) : String :=
  (if (m.check f).satisfying.contains s then "✅ " ++ s.name ++ " holds for " ++ f.render
    else "❌ " ++ s.name ++ " does not hold for " ++ f.render) ++ "\n"

theorem render_ofFormula (m : Model) (f : Formula) :
    (Report.ofFormula f (m.check f).satisfying m.allStates).render =
      String.join (m.allStates.toList.map (verdictLine m f)) := by
  rw [Report.render, Report.verdicts, List.map_map]
  rfl

/-- The states that a request is about. -/
def Request.states (q : Request) : List StateId :=
  match q.state with
  | none => q.model.allStates.toList
  | some id => [id]

/-- The verdict lines for a request, formula by formula. -/
def Request.answer (q : Request) : String :=
  String.join (q.formulas.map fun f => String.join (q.states.map (verdictLine q.model f)))

section Answer

variable {q : Request} {modelText : String} {texts? : Option (List String)} {state : Option String}
  (hq : q.IsFor modelText texts? state)
include hq

theorem contains_state {id : StateId} (h : q.state = some id) : q.model.contains id = true := by
  have hState := hq.state
  rw [h] at hState
  cases hState with
  | some hId => exact hId.2

/-- Without a name a request is about all states of the model, in ascending order. -/
theorem states_of_state_eq_none (h : q.state = none) :
    q.states.Pairwise (· < ·) ∧ ∀ s, s ∈ q.states ↔ q.model.contains s = true := by
  obtain ⟨accepted, hm⟩ := (Model.isBuilt_of_parse hq.model).exists_isBuiltFrom
  rw [Request.states, h]
  refine ⟨q.model.allStates.ascending, fun s => ?_⟩
  rw [← Model.contains_allStates hm]
  exact StateSet.contains_iff_mem.symm

theorem prints_printReport (f : Formula) :
    Prints d (printReport q.model q.state f)
      (String.join (q.states.map (verdictLine q.model f))) (.ok ()) := by
  obtain ⟨accepted, hm⟩ := (Model.isBuilt_of_parse hq.model).exists_isBuiltFrom
  refine Prints.bind_quiet ((prints_logAll _).bind_quiet (prints_pure _)) ?_
  cases hState : q.state with
  | none =>
    simp only [Request.states, hState, ← render_ofFormula]
    exact prints_print _
  | some id =>
    have hIn := (Model.contains_allStates hm).mpr (contains_state hq hState)
    simp only [Request.states, hState, List.map_singleton, String.join_cons, String.join_nil,
      String.append_empty]
    rw [Report.verdict?_of_contains hIn]
    exact prints_print _

/-- After good input nothing fails. -/
theorem prints_reports :
    Prints d (q.formulas.forM (printReport q.model q.state)) q.answer (.ok ()) :=
  Prints.forM fun f _ => prints_printReport hq f

end Answer

-- ---------------------------------------------------------------------------
-- The command
-- ---------------------------------------------------------------------------

/-- **All or nothing.** For a command line that asks for a check, with files that
can be read, the exit code is 0 iff all of the input is accepted. What is printed
is then, for each formula in order, the verdict line of the state that was named, or
the verdict lines of all states of the model in ascending order. In every other
case the exit code is 1 and nothing is printed. If no flag asks for log records,
that is all of the standard output; else the records stand there too. -/
theorem run_check_all_or_nothing {directory : Directory} {arguments : List String}
    {invocation : Invocation} {model modelText : String}
    {formula formulas fileText state : Option String}
    (hArguments : Invocation.ofArguments arguments = .ok invocation)
    (hAction : invocation.action = .check model formula formulas state)
    (hModel : directory.read model = .ok modelText)
    (hFormulas : formulas.mapM directory.read = .ok fileText) :
    let texts? := formulaTexts? formula fileText
    let r := run directory arguments
    (r.exitCode = 0 ↔ IsAccepted modelText texts? state) ∧
    (IsAccepted modelText texts? state → ∃ q : Request, q.IsFor modelText texts? state ∧
      r.printed = q.answer ∧
      (invocation.verbosity = 0 → r.stdout = q.answer) ∧
      (∀ id, q.state = some id → q.states = [id]) ∧
      (q.state = none →
        q.states.Pairwise (· < ·) ∧ ∀ s, s ∈ q.states ↔ q.model.contains s = true)) ∧
    (¬ IsAccepted modelText texts? state →
      r.exitCode = 1 ∧ r.printed = "" ∧ (invocation.verbosity = 0 → r.stdout = "")) := by
  intro texts? r
  have hRead : Prints directory (readRequest model formula formulas state) ""
      (requestOutcome model modelText texts? state) := prints_readRequest hModel hFormulas state
  have hRun : invocation.action.run = readRequest model formula formulas state >>= fun q =>
      q.formulas.forM (printReport q.model q.state) := by
    rw [hAction, Action.run, runCheck_eq]
  rw [isAccepted_iff_exists_request]
  cases hOutcome : requestOutcome model modelText texts? state with
  | ok q =>
    have hq : q.IsFor modelText texts? state := requestOutcome_eq_ok_iff.mp hOutcome
    rw [hOutcome] at hRead
    have hPrints : Prints directory invocation.action.run q.answer (.ok ()) := by
      rw [hRun]
      exact hRead.bind_quiet (prints_reports hq)
    obtain ⟨hExit, hPrinted, hStdout⟩ := run_of_prints hArguments hPrints
    refine ⟨iff_of_true hExit ⟨q, hq⟩, ?_, fun hNone => absurd ⟨q, hq⟩ hNone⟩
    rintro -
    refine ⟨q, hq, hPrinted, hStdout, ?_, states_of_state_eq_none hq⟩
    intro id hId
    rw [Request.states, hId]
  | error failure =>
    have hNone : ¬ ∃ q : Request, q.IsFor modelText texts? state := by
      rintro ⟨q, hq⟩
      cases hOutcome.symm.trans (requestOutcome_eq_ok_iff.mpr hq)
    rw [hOutcome] at hRead
    have hPrints : Prints directory invocation.action.run "" (.error failure) := by
      rw [hRun]
      exact hRead.bind_error _
    have hNothing := run_of_prints hArguments hPrints
    refine ⟨iff_of_false ?_ hNone, fun h => absurd h hNone, fun _ => hNothing⟩
    rw [hNothing.1]
    exact Nat.one_ne_zero

/-- The last line of a file does not parse, and the command prints nothing, though
without that line the file is good. -/
theorem run_check_bad_last_line :
    let modelText := "s1;\ns1 : p;\n"
    let good := "p\n\n# done\n"
    let bad := "p\n\n# done\np AND\n"
    let directory : Directory :=
      { files := [⟨["model"], modelText⟩, ⟨["good"], good⟩, ⟨["bad"], bad⟩] }
    let r := run directory ["check", "-k", "model", "-f", "bad"]
    (run directory ["check", "-k", "model", "-f", "good"]).exitCode = 0 ∧
      r.exitCode = 1 ∧ r.stdout = "" := by
  intro modelText good bad directory r
  have hModel : directory.read "model" = .ok modelText := rfl
  have hGood : Invocation.ofArguments ["check", "-k", "model", "-f", "good"] =
      .ok ⟨0, .check "model" none (some "good") none⟩ := rfl
  have hGoodRead : (some "good").mapM directory.read = .ok (some good) := rfl
  have hBad : Invocation.ofArguments ["check", "-k", "model", "-f", "bad"] =
      .ok ⟨0, .check "model" none (some "bad") none⟩ := rfl
  have hBadRead : (some "bad").mapM directory.read = .ok (some bad) := rfl
  obtain ⟨hExit, -, -⟩ := run_check_all_or_nothing hGood rfl hModel hGoodRead
  obtain ⟨-, -, hNothing⟩ := run_check_all_or_nothing hBad rfl hModel hBadRead
  have hRejected : ¬ IsAccepted modelText (some (formulaTextsOf bad)) none := by
    rintro ⟨-, -, ⟨texts, hTexts, hParse⟩, -⟩
    have hBadTexts : formulaTextsOf bad = ["p", "p AND"] := by decide +kernel
    cases hTexts.symm.trans (congrArg some hBadTexts)
    obtain ⟨f, hLast⟩ := hParse "p AND" (by decide)
    have hFails : (Formula.parse "p AND").isOk = false := by decide +kernel
    rw [hLast] at hFails
    cases hFails
  obtain ⟨hExitBad, -, hStdout⟩ := hNothing hRejected
  refine ⟨hExit.mpr ?_, hExitBad, hStdout rfl⟩
  have hTexts : formulaTextsOf good = ["p"] := by decide +kernel
  have hParse : Formula.parse "p" = .ok (.atom "p") := by decide +kernel
  have hFormulas : ∀ text ∈ ["p"], ∃ f, Formula.parse text = .ok f :=
    List.forall_mem_singleton.mpr ⟨_, hParse⟩
  have hModelParse : (Model.parse modelText).isOk = true := by decide +kernel
  cases hParsed : Model.parse modelText with
  | error e =>
    rw [hParsed] at hModelParse
    cases hModelParse
  | ok m =>
    refine ⟨m, hParsed, ⟨["p"], congrArg some hTexts, hFormulas⟩, fun name hName => ?_⟩
    cases hName

/-- A record is shown before the formula fails, if a flag asks for it. -/
example :
    let directory : Directory := { files := [⟨["model"], "s1;\ns1 : p;\n"⟩] }
    let r := run directory ["-v", "check", "-k", "model", "-a", "p AND"]
    r.exitCode = 1 ∧ r.printed = "" ∧
      r.stdout = "INFO Loaded model model with 1 states and 0 transitions\n" := by
  decide +kernel

end BranchingTime.Command
