import BranchingTime.Proofs.Check.Derived
import BranchingTime.Report

/-!
# BranchingTime — reports and the checker

A report keeps two sets, the states that satisfy the formula and all states, and
answers every question from these. That all answers agree, and in particular
that comparing the sizes of the sets tells whether the formula holds everywhere,
needs the first set to lie inside the second: the checker finds no state that
the model does not have.

## Results

* `Report.holdsEverywhere_iff`, `Report.isEmpty_violating_iff`,
  `Report.forall_holds_iff` — three ways to ask whether all states satisfy the
  formula.
* `Model.report_agrees_with_check` — all answers of a report are the checker's.
-/

namespace BranchingTime

namespace Report

-- ---------------------------------------------------------------------------
-- Verdicts
-- ---------------------------------------------------------------------------

theorem verdict?_eq_none_iff {r : Report} {s : StateId} :
    r.verdict? s = none ↔ r.states.contains s = false := by
  rw [verdict?]
  cases r.states.contains s <;> simp

theorem verdict?_of_contains {r : Report} {s : StateId} (h : r.states.contains s = true) :
    r.verdict? s = some (r.verdictOn s) :=
  if_pos h

theorem map_state_verdicts (r : Report) : r.verdicts.map Verdict.state = r.states.toList := by
  rw [verdicts, List.map_map]
  exact List.map_id _

/-- The verdicts of the list are those that can be asked for. -/
theorem verdict?_of_mem_verdicts {r : Report} {v : Verdict} (h : v ∈ r.verdicts) :
    r.verdict? v.state = some v := by
  obtain ⟨s, hs, rfl⟩ := List.mem_map.mp h
  exact verdict?_of_contains (StateSet.contains_iff_mem.mpr hs)

-- ---------------------------------------------------------------------------
-- Holding everywhere
-- ---------------------------------------------------------------------------

theorem forall_holds_iff {r : Report} :
    (∀ v ∈ r.verdicts, v.holds = true) ↔ r.states ≤ r.satisfying := by
  rw [verdicts, List.forall_mem_map]
  exact forall_congr' fun s => imp_congr_left StateSet.contains_iff_mem.symm

theorem isEmpty_violating_iff {r : Report} :
    r.violating.isEmpty = true ↔ r.states ≤ r.satisfying := by
  rw [violating, StateSet.isEmpty, List.isEmpty_iff, List.eq_nil_iff_forall_not_mem]
  refine forall_congr' fun s => ?_
  rw [← StateSet.contains_iff_mem, StateSet.contains_diff, not_and_not_right]

/-- As many states as there are satisfy the formula only if all of them do, when
all that satisfy it are among them. -/
theorem holdsEverywhere_iff {r : Report} (hInside : r.satisfying ≤ r.states) :
    r.holdsEverywhere = true ↔ r.states ≤ r.satisfying := by
  rw [holdsEverywhere, beq_iff_eq]
  constructor
  · intro hSize
    rw [StateSet.eq_of_le_of_size_eq hInside hSize]
    exact fun s hs => hs
  · intro hLe
    exact Nat.le_antisymm (StateSet.subperm_of_le hInside).length_le
      (StateSet.subperm_of_le hLe).length_le

end Report

namespace Model

/-- **Reports agree with the checker.** A report on a built model has a verdict on a
state iff the model has the state, and the verdict is what the checker answers
there. The list of verdicts has each state of the model once, in ascending order,
with the same verdicts. The violating states are those that the checker finds for
the negation. The formula holds everywhere iff no state violates it, and iff every
verdict of the list holds. -/
theorem report_agrees_with_check {m : Model} (hm : m.IsBuilt) {f : Formula} (hf : f.IsObtained) :
    let r := m.report f
    (∀ s, r.verdict? s = none ↔ m.contains s = false) ∧
    (∀ s v, r.verdict? s = some v → v.state = s ∧ v.formula = f.render ∧
      v.holds = m.holdsIn f s ∧ v.holds = (m.satisfying f).contains s) ∧
    (r.verdicts.map Verdict.state).Pairwise (· < ·) ∧
    (∀ s, s ∈ r.verdicts.map Verdict.state ↔ m.contains s = true) ∧
    (∀ v ∈ r.verdicts, r.verdict? v.state = some v) ∧
    r.violating = m.satisfying f.not ∧
    (r.holdsEverywhere = true ↔ r.violating.isEmpty = true) ∧
    (r.holdsEverywhere = true ↔ ∀ v ∈ r.verdicts, v.holds = true) := by
  intro r
  obtain ⟨accepted, hm⟩ := hm.exists_isBuiltFrom
  obtain ⟨t, rfl⟩ := hf.exists_layout
  have hInside : r.satisfying ≤ r.states := satisfying_le_allStates hm t
  have hStates (s : StateId) : r.states.contains s = m.contains s :=
    Bool.eq_iff_iff.mpr (contains_allStates hm)
  refine ⟨?_, ?_, ?_, ?_, ?_, (satisfying_not hm t).symm, ?_, ?_⟩
  · intro s
    rw [Report.verdict?_eq_none_iff, hStates]
  · intro s v hVerdict
    have hIn : r.states.contains s = true := by
      rw [← Bool.not_eq_false, ← Report.verdict?_eq_none_iff, hVerdict]
      exact Option.some_ne_none v
    rw [Report.verdict?_of_contains hIn] at hVerdict
    cases hVerdict
    refine ⟨rfl, rfl, ?_, rfl⟩
    rw [holdsIn, ← hStates, hIn, Bool.true_and]
    rfl
  · rw [Report.map_state_verdicts]
    exact r.states.ascending
  · intro s
    rw [Report.map_state_verdicts, ← hStates]
    exact StateSet.contains_iff_mem.symm
  · exact fun v hv => Report.verdict?_of_mem_verdicts hv
  · rw [Report.holdsEverywhere_iff hInside, Report.isEmpty_violating_iff]
  · rw [Report.holdsEverywhere_iff hInside, Report.forall_holds_iff]

/-- In `1 → 2`, where only the dead end `2` carries `p`, the formula `p` does not
hold everywhere: `1` violates it, and there is no verdict on `3`. -/
theorem report_agrees_on_violation :
    let calls : List Builder.Call :=
      [.state ⟨1⟩, .state ⟨2⟩, .transition ⟨⟨7⟩, ⟨1⟩, ⟨2⟩⟩, .label ⟨2⟩ "p"]
    let m := (Builder.attemptAll {} calls).1.build
    let f := Formula.atom "p"
    m.IsBuilt ∧ f.IsObtained ∧ (m.report f).verdict? ⟨3⟩ = none ∧
      (m.report f).violating = m.satisfying f.not ∧ (m.satisfying f.not).members = [⟨1⟩] ∧
      (m.report f).holdsEverywhere = false := by
  intro calls m f
  have hm : m.IsBuilt := ⟨calls, rfl⟩
  have hf : f.IsObtained := .atom "p"
  -- sorting does not compute, but the states were declared in order
  have hSorted : (Builder.attemptAll {} calls).1.sortedStates =
      [{ id := ⟨1⟩, outgoing := [0] }, { id := ⟨2⟩, labels := ["p"] }] :=
    List.mergeSort_of_pairwise (by decide +kernel)
  have hMissing : m.contains ⟨3⟩ = false := by
    simp only [m, Builder.build, hSorted]
    decide +kernel
  have hFound : (m.satisfying f.not).members = [⟨1⟩] := by
    simp only [m, Builder.build, hSorted]
    decide +kernel
  obtain ⟨hNone, -, -, -, -, hViolating, hEverywhere, -⟩ := report_agrees_with_check hm hf
  refine ⟨hm, hf, (hNone ⟨3⟩).mpr hMissing, hViolating, hFound, ?_⟩
  rw [hViolating, StateSet.isEmpty, hFound] at hEverywhere
  exact Bool.eq_false_iff.mpr fun hAll => Bool.false_ne_true (hEverywhere.mp hAll)

end Model

end BranchingTime
