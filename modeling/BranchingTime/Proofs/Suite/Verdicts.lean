import BranchingTime.Proofs.Check.Correctness
import BranchingTime.Proofs.Command.Sessions
import BranchingTime.Proofs.Formula.Arena
import BranchingTime.Proofs.Model.Reading

/-!
# BranchingTime — the findings of a suite

A case passes if the model has its state and the checker answers as expected;
the checker answers by the paths of the model. A case about a state that the
model does not have fails whatever it expects, though the checker's answer there
is no.

## Results

* `holdsIn_iff` — the answer of the checker on a state.
* `isPassed_runCase_iff` — when a case passes.
* `run_verdicts` — what a suite reports, and what its command exits with.
-/

namespace BranchingTime

namespace Model

theorem holdsIn_iff {m : Model} (hm : m.IsBuilt) {f : Formula} (hf : f.IsObtained) (s : StateId) :
    m.holdsIn f s = true ↔ m.contains s = true ∧ m.SatisfiesFormula f s := by
  obtain ⟨accepted, hAccepted⟩ := hm.exists_isBuiltFrom
  obtain ⟨t, rfl⟩ := hf.exists_layout
  rw [holdsIn, Bool.and_eq_true, contains_satisfying_layout hAccepted, satisfiesFormula_layout]
  exact and_self_left

end Model

namespace Suite

section Cases

variable {m : Model} {c : Expectation}

-- ---------------------------------------------------------------------------
-- One case
-- ---------------------------------------------------------------------------

theorem given_runCase : (runCase m c).given = c := by
  unfold runCase
  split
  · rfl
  · rfl

theorem outcome_runCase_of_contains (h : m.contains c.state = true) :
    (runCase m c).outcome =
      if m.holdsIn c.formula c.state = c.expected then .passed (m.holdsIn c.formula c.state)
      else .failed (m.holdsIn c.formula c.state) := by
  simp only [runCase, h, if_true, beq_iff_eq]

theorem outcome_runCase_eq_unknownState_iff :
    (runCase m c).outcome = .unknownState ↔ m.contains c.state = false := by
  cases h : m.contains c.state with
  | false => simp [runCase, h]
  | true =>
    rw [outcome_runCase_of_contains h]
    split
    · simp
    · simp

theorem isPassed_iff {r : Finding} : r.isPassed = true ↔ ∃ holds, r.outcome = .passed holds := by
  rw [Finding.isPassed]
  cases r.outcome with
  | passed holds => simp
  | failed holds => simp
  | unknownState => simp

/-- A case passes if its state is there and its verdict is the expected one. -/
theorem isPassed_runCase_iff (hm : m.IsBuilt) (hc : c.formula.IsObtained) :
    (runCase m c).isPassed = true ↔
      m.contains c.state = true ∧ (m.SatisfiesFormula c.formula c.state ↔ c.expected = true) := by
  have hHolds := Model.holdsIn_iff hm hc c.state
  cases h : m.contains c.state with
  | false => simp [runCase, h, Finding.isPassed]
  | true =>
    rw [h, and_iff_right rfl] at hHolds
    rw [and_iff_right rfl, ← hHolds, ← Bool.eq_iff_iff, Finding.isPassed,
      outcome_runCase_of_contains h]
    by_cases hExpected : m.holdsIn c.formula c.state = c.expected
    · rw [if_pos hExpected]
      exact iff_of_true rfl hExpected
    · rw [if_neg hExpected]
      exact iff_of_false Bool.false_ne_true hExpected

end Cases

-- ---------------------------------------------------------------------------
-- Reports
-- ---------------------------------------------------------------------------

theorem passed_add_failed (report : Findings) :
    report.passed + report.failed = report.all.length := by
  have hLe : report.passed ≤ report.all.length := List.countP_le_length
  rw [Findings.failed]
  omega

theorem failures_eq_filter (report : Findings) :
    report.failures = report.all.filter fun r => decide (∀ holds, r.outcome ≠ .passed holds) := by
  refine List.filter_congr fun r _ => ?_
  rw [Bool.eq_iff_iff, Bool.not_eq_true', ← Bool.not_eq_true, isPassed_iff, decide_eq_true_iff,
    not_exists]

theorem length_failures (report : Findings) : report.failures.length = report.failed := by
  rw [Findings.failures, ← List.countP_eq_length_filter, Findings.failed, Findings.passed,
    List.length_eq_countP_add_countP Finding.isPassed, Nat.add_sub_cancel_left]
  simp

/-- **Verdicts of a suite.** On a model that a builder makes, the findings are
about the cases in their order. The state of a case is found unknown iff the model
does not have it; else the verdict is whether the state satisfies the formula on
its maximal paths, and the case passes iff this is what it expects. Passed and
failed cases add up, the failures are the findings that did not pass, and all
pass iff each case is about a state of the model and expects what holds there.
The command for suites exits with 0 then, and with 1 else, when its files can be
read and parse. -/
theorem run_verdicts {m : Model} (hm : m.IsBuilt) {s : Suite}
    (hs : ∀ c ∈ s.cases, c.formula.IsObtained) :
    let report := s.run m
    report.all.map Finding.given = s.cases ∧
    (∀ r ∈ report.all,
      (r.outcome = .unknownState ↔ m.contains r.given.state = false) ∧
      (m.contains r.given.state = true →
        ∃ holds : Bool, (holds = true ↔ m.SatisfiesFormula r.given.formula r.given.state) ∧
          r.outcome = if holds = r.given.expected then .passed holds else .failed holds)) ∧
    report.passed + report.failed = s.cases.length ∧
    report.failures.length = report.failed ∧
    (report.failures = report.all.filter fun r => decide (∀ holds, r.outcome ≠ .passed holds)) ∧
    (report.allPassed = true ↔ ∀ c ∈ s.cases, m.contains c.state = true ∧
      (m.SatisfiesFormula c.formula c.state ↔ c.expected = true)) ∧
    ∀ directory arguments invocation modelPath suitePath modelText suiteText,
      Command.Invocation.ofArguments arguments = .ok invocation →
      invocation.action = .suite modelPath suitePath →
      directory.read modelPath = .ok modelText → Model.parse modelText = .ok m →
      directory.read suitePath = .ok suiteText → parse suiteText = .ok s →
      (Command.run directory arguments).exitCode = if report.allPassed then 0 else 1 := by
  intro report
  have hGiven : report.all.map Finding.given = s.cases := by
    simp [report, run, List.map_map, Function.comp_def, given_runCase]
  refine ⟨hGiven, ?_, ?_, length_failures report, failures_eq_filter report, ?_, ?_⟩
  · intro r hr
    obtain ⟨c, hc, rfl⟩ := List.mem_map.mp hr
    rw [given_runCase]
    refine ⟨outcome_runCase_eq_unknownState_iff, fun hState => ?_⟩
    have hHolds := Model.holdsIn_iff hm (hs c hc) c.state
    rw [hState, and_iff_right rfl] at hHolds
    exact ⟨m.holdsIn c.formula c.state, hHolds, outcome_runCase_of_contains hState⟩
  · rw [passed_add_failed, ← hGiven, List.length_map]
  · rw [Findings.allPassed, List.all_eq_true]
    show (∀ r ∈ s.cases.map (runCase m), r.isPassed = true) ↔ _
    rw [List.forall_mem_map]
    exact forall₂_congr fun c hc => isPassed_runCase_iff hm (hs c hc)
  · intro directory arguments invocation modelPath suitePath modelText suiteText hArguments
      hAction hModelRead hModel hSuiteRead hSuite
    exact Command.exitCode_run_suite hArguments hAction hModelRead hModel hSuiteRead hSuite

/-- A case that expects `p` not to hold in a state that is not there fails, and so
does the command, though `p` does not hold there. -/
theorem run_verdicts_unknown_state :
    let modelText := "s1;\ns1 : p;\n"
    let suiteText := "s1; p; true\ns2; p; false\n"
    let directory : Directory := { files := [⟨["model"], modelText⟩, ⟨["suite"], suiteText⟩] }
    let s : Suite := ⟨[⟨1, ⟨1⟩, .atom "p", true⟩, ⟨2, ⟨2⟩, .atom "p", false⟩]⟩
    parse suiteText = .ok s ∧ (∀ c ∈ s.cases, c.formula.IsObtained) ∧
    ∃ m, Model.parse modelText = .ok m ∧ m.IsBuilt ∧
      (s.run m).all.map Finding.outcome = [.passed true, .unknownState] ∧
      (Command.run directory ["suite", "-k", "model", "-t", "suite"]).exitCode = 1 := by
  intro modelText suiteText directory s
  have hSuite : parse suiteText = .ok s := by decide +kernel
  have hObtained : ∀ c ∈ s.cases, c.formula.IsObtained := by
    intro c hc
    simp only [s, List.mem_cons, List.not_mem_nil, or_false] at hc
    rcases hc with rfl | rfl
    · exact .atom "p"
    · exact .atom "p"
  have hOutcomes : (Model.parse modelText).map (fun m => (s.run m).all.map Finding.outcome) =
      .ok [.passed true, .unknownState] := by decide +kernel
  refine ⟨hSuite, hObtained, ?_⟩
  cases hModel : Model.parse modelText with
  | error e =>
    rw [hModel] at hOutcomes
    cases hOutcomes
  | ok m =>
    rw [hModel] at hOutcomes
    replace hOutcomes : (s.run m).all.map Finding.outcome = [.passed true, .unknownState] :=
      Except.ok.inj hOutcomes
    have hBuilt := Model.isBuilt_of_parse hModel
    obtain ⟨-, -, -, -, -, -, hExit⟩ := run_verdicts hBuilt hObtained
    have hFailed : (s.run m).allPassed = false := by
      refine Bool.eq_false_iff.mpr fun hAll => ?_
      have hUnknown : .unknownState ∈ (s.run m).all.map Finding.outcome := by
        rw [hOutcomes]
        exact List.mem_cons_of_mem _ List.mem_cons_self
      obtain ⟨r, hr, hOutcome⟩ := List.mem_map.mp hUnknown
      obtain ⟨holds, hPassed⟩ := isPassed_iff.mp (List.all_eq_true.mp hAll r hr)
      cases hOutcome.symm.trans hPassed
    refine ⟨m, rfl, hBuilt, hOutcomes, ?_⟩
    rw [hExit directory _ ⟨0, .suite "model" "suite"⟩ "model" "suite" modelText suiteText rfl rfl
      rfl hModel rfl hSuite, hFailed]
    rfl

end Suite

end BranchingTime
