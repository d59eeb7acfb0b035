import BranchingTime.Check.Predecessors
import BranchingTime.Proofs.Check.Correctness
import BranchingTime.Proofs.StateSet

/-!
# BranchingTime — predecessors as sets of states

The checker works on positions and answers with sets of states. In a built
model the two kinds of sets correspond, so the predecessors of a set of states
can be told from the transitions alone.

## Results

* `toList_toStateSet` — sets that come from positions ascend with them.
* `toStateSet_toPositions` — going to positions and back leaves the states of the
  model.
* `contains_preStates_some`, `contains_preStates_all` — the predecessors of any
  set of states, whether the model has all its members or not.
* `preStates_by_transitions` — all that is to be said of them.
-/

namespace BranchingTime.Model

section Sets

variable {m : Model} {accepted : List Builder.Call} (hm : m.IsBuiltFrom accepted)
include hm

-- ---------------------------------------------------------------------------
-- Sets of states of a model
-- ---------------------------------------------------------------------------

/-- Positions ascend with identifiers, so nothing is left to sort. -/
theorem toList_toStateSet (X : BitSet) :
    (m.toStateSet X).toList = X.toList.filterMap fun i => m.states[i]?.map State.id := by
  have hIds : ∀ i j : Nat, i < j → ∀ a, m.states[i]?.map State.id = some a →
      ∀ b, m.states[j]?.map State.id = some b → a < b := by
    intro i j hij a ha b hb
    obtain ⟨s, hs, rfl⟩ := Option.map_eq_some_iff.mp ha
    obtain ⟨t, ht, rfl⟩ := Option.map_eq_some_iff.mp hb
    obtain ⟨hi, rfl⟩ := Array.getElem?_eq_some_iff.mp hs
    obtain ⟨hj, rfl⟩ := Array.getElem?_eq_some_iff.mp ht
    have hAscends := List.pairwise_iff_getElem.mp hm.ascending i j hi hj hij
    rwa [Array.getElem_toList, Array.getElem_toList] at hAscends
  refine StateSet.toList_ofList ?_
  rw [List.pairwise_filterMap]
  exact (BitSet.pairwise_toList X).imp fun {i j} hij => hIds i j hij

theorem contains_allStates {id : StateId} :
    m.allStates.contains id = true ↔ m.contains id = true := by
  have hMembers : m.allStates.members = m.states.toList.map State.id := hm.allStates
  rw [StateSet.contains_iff_mem, hMembers, List.mem_map, hm.contains_iff_exists]
  simp only [Array.mem_toList_iff]

/-- The dead ends are the states that no step leaves. -/
theorem contains_deadlocks {id : StateId} :
    m.deadlocks.contains id = true ↔ m.contains id = true ∧ ∀ t, ¬ m.Step id t := by
  rw [deadlocks, statesWhere, StateSet.contains_ofList, hm.contains_iff_exists]
  simp only [List.mem_map, List.mem_filter, Array.mem_toList_iff]
  constructor
  · rintro ⟨s, ⟨hs, hDead⟩, rfl⟩
    exact ⟨⟨s, hs, rfl⟩, (hm.isDeadlock_iff hs).mp hDead⟩
  · rintro ⟨⟨s, hs, rfl⟩, hDead⟩
    exact ⟨s, ⟨hs, (hm.isDeadlock_iff hs).mpr hDead⟩, rfl⟩

-- ---------------------------------------------------------------------------
-- Predecessors
-- ---------------------------------------------------------------------------

/-- Both ends of a step are states of the model. -/
theorem contains_of_step {s t : StateId} (h : m.Step s t) :
    m.contains s = true ∧ m.contains t = true := by
  obtain ⟨transition, hMem, rfl, rfl⟩ := h
  exact hm.endpoints transition hMem

omit hm in
theorem represents_toPositions (X : StateSet) :
    m.Represents (m.toPositions X) fun id => X.contains id = true := by
  intro i
  rw [toPositions, BitSet.contains_insertMany, BitSet.contains_withCapacity, Bool.or_false,
    decide_eq_true_eq, List.mem_filterMap]
  constructor
  · rintro ⟨id, hMem, hPosition⟩
    exact ⟨id, hPosition, StateSet.contains_iff_mem.mpr hMem⟩
  · rintro ⟨id, hPosition, hContains⟩
    exact ⟨id, StateSet.contains_iff_mem.mp hContains, hPosition⟩

theorem contains_preStates_some {X : StateSet} {s : StateId} :
    (m.preStates .some X).contains s = true ↔ ∃ t, m.Step s t ∧ X.contains t = true := by
  have hPre := (m.represents_toPositions X).pre_some hm
  rw [preStates, hPre.contains_toStateSet hm]
  refine and_iff_right_of_imp ?_
  rintro ⟨t, hStep, -⟩
  exact (contains_of_step hm hStep).1

theorem contains_preStates_all {X : StateSet} {s : StateId} :
    (m.preStates .all X).contains s = true ↔
      (∃ t, m.Step s t) ∧ ∀ t, m.Step s t → X.contains t = true := by
  have hPre := (m.represents_toPositions X).pre_all hm
  rw [preStates, hPre.contains_toStateSet hm]
  refine and_iff_right_of_imp ?_
  rintro ⟨⟨t, hStep⟩, -⟩
  exact (contains_of_step hm hStep).1

theorem preStates_le_allStates (q : Quantifier) (X : StateSet) :
    m.preStates q X ≤ m.allStates := by
  intro s hs
  rw [contains_allStates hm]
  cases q with
  | some =>
    obtain ⟨t, hStep, -⟩ := (contains_preStates_some hm).mp hs
    exact (contains_of_step hm hStep).1
  | all =>
    obtain ⟨⟨t, hStep⟩, -⟩ := (contains_preStates_all hm).mp hs
    exact (contains_of_step hm hStep).1

/-- Only the states of the model count. -/
theorem preStates_congr {X Y : StateSet}
    (h : ∀ s, m.contains s = true → (X.contains s = true ↔ Y.contains s = true))
    (q : Quantifier) : m.preStates q X = m.preStates q Y := by
  have hTarget {s t : StateId} (hStep : m.Step s t) :
      X.contains t = true ↔ Y.contains t = true :=
    h t (contains_of_step hm hStep).2
  refine StateSet.eq_of_contains_iff fun s => ?_
  cases q with
  | some =>
    rw [contains_preStates_some hm, contains_preStates_some hm]
    exact exists_congr fun t => and_congr_right hTarget
  | all =>
    rw [contains_preStates_all hm, contains_preStates_all hm]
    exact and_congr_right fun _ => forall₂_congr fun t => hTarget

/-- Going to positions and back drops what the model does not have. -/
theorem toStateSet_toPositions (X : StateSet) :
    m.toStateSet (m.toPositions X) = X.inter m.allStates := by
  refine StateSet.eq_of_contains_iff fun s => ?_
  rw [(m.represents_toPositions X).contains_toStateSet hm, StateSet.contains_inter,
    contains_allStates hm, and_comm]

/-- Every step leads into a set iff none leads out of it; but a dead end, from which
none leads anywhere, is taken off. -/
theorem preStates_all_eq_diff (X : StateSet) :
    m.preStates .all X =
      (m.allStates.diff (m.preStates .some (m.allStates.diff X))).diff m.deadlocks := by
  refine StateSet.eq_of_contains_iff fun s => ?_
  rw [StateSet.contains_diff, StateSet.contains_diff, contains_preStates_all hm,
    contains_preStates_some hm, contains_deadlocks hm, contains_allStates hm]
  simp only [StateSet.contains_diff, contains_allStates hm]
  constructor
  · rintro ⟨⟨t, hStep⟩, hInto⟩
    refine ⟨⟨(contains_of_step hm hStep).1, ?_⟩, fun hEnd => hEnd.2 t hStep⟩
    rintro ⟨u, hu, -, hOut⟩
    exact hOut (hInto u hu)
  · rintro ⟨⟨hIn, hNone⟩, hGoesOn⟩
    constructor
    · apply Classical.byContradiction
      intro hStuck
      exact hGoesOn ⟨hIn, fun t hStep => hStuck ⟨t, hStep⟩⟩
    · intro t hStep
      apply Classical.byContradiction
      intro hOut
      exact hNone ⟨t, hStep, (contains_of_step hm hStep).2, hOut⟩

end Sets

-- ---------------------------------------------------------------------------
-- All that is to be said
-- ---------------------------------------------------------------------------

/-- **Predecessors by identifiers.** On every built model, for any set of states,
which may hold identifiers that the model does not have: some step leads into the
set from the sources of the transitions with a target in it, and every step, of
which there is one, from the sources all of whose transitions have theirs in it.
Identifiers that the model does not have neither count nor are found. Positions
stand for the states of the model in the set, and the second operator is the first
one between complements, less the dead ends. -/
theorem preStates_by_transitions {m : Model} (hm : m.IsBuilt) (X : StateSet) :
    (∀ s, (m.preStates .some X).contains s = true ↔
      ∃ t ∈ m.transitions, t.source = s ∧ X.contains t.target = true) ∧
    (∀ s, (m.preStates .all X).contains s = true ↔
      (∃ t ∈ m.transitions, t.source = s) ∧
        ∀ t ∈ m.transitions, t.source = s → X.contains t.target = true) ∧
    (∀ q, (m.preStates q X).toList.Pairwise (· < ·) ∧ m.preStates q X ≤ m.allStates) ∧
    (∀ Y : StateSet, (∀ s, m.contains s = true → (X.contains s = true ↔ Y.contains s = true)) →
      ∀ q, m.preStates q X = m.preStates q Y) ∧
    m.toStateSet (m.toPositions X) = X.inter m.allStates ∧
    m.preStates .all X =
      (m.allStates.diff (m.preStates .some (m.allStates.diff X))).diff m.deadlocks := by
  obtain ⟨accepted, hm⟩ := hm.exists_isBuiltFrom
  refine ⟨fun s => ?_, fun s => ?_, fun q => ?_, fun Y hY => preStates_congr hm hY,
    toStateSet_toPositions hm X, preStates_all_eq_diff hm X⟩
  · rw [contains_preStates_some hm]
    constructor
    · rintro ⟨_, ⟨t, ht, hSource, rfl⟩, hIn⟩
      exact ⟨t, ht, hSource, hIn⟩
    · rintro ⟨t, ht, hSource, hIn⟩
      exact ⟨t.target, ⟨t, ht, hSource, rfl⟩, hIn⟩
  · rw [contains_preStates_all hm]
    constructor
    · rintro ⟨⟨_, t, ht, rfl, rfl⟩, hAll⟩
      refine ⟨⟨t, ht, rfl⟩, ?_⟩
      intro u hu hSource
      exact hAll u.target ⟨u, hu, hSource, rfl⟩
    · rintro ⟨⟨t, ht, hSource⟩, hAll⟩
      refine ⟨⟨t.target, t, ht, hSource, rfl⟩, ?_⟩
      rintro _ ⟨u, hu, hFrom, rfl⟩
      exact hAll u hu hFrom
  · exact ⟨(m.preStates q X).ascending, preStates_le_allStates hm q X⟩

/-- States far apart, declared in another order than that of their numbers, and the
set of the dead end `7` and of `9`, which is no state: `1000000` has a step into
the set and one out of it, the largest state has one into it only. -/
theorem preStates_far_apart :
    let calls : List Builder.Call :=
      [.state ⟨4294967295⟩, .state ⟨7⟩, .state ⟨1000000⟩, .transition ⟨⟨0⟩, ⟨1000000⟩, ⟨7⟩⟩,
        .transition ⟨⟨1⟩, ⟨4294967295⟩, ⟨7⟩⟩, .transition ⟨⟨2⟩, ⟨1000000⟩, ⟨4294967295⟩⟩]
    let m := (Builder.attemptAll {} calls).1.build
    let X : StateSet := .ofNumbers [7, 9]
    m.IsBuilt ∧ m.preStates .some X = .ofNumbers [1000000, 4294967295] ∧
    m.preStates .all X = .ofNumbers [4294967295] ∧
    m.toStateSet (m.toPositions X) = X.inter m.allStates := by
  intro calls m X
  have hm : m.IsBuilt := ⟨calls, rfl⟩
  obtain ⟨hSome, hAll, -, -, hPositions, -⟩ := preStates_by_transitions hm X
  have hTransitions : m.transitions =
      #[⟨⟨0⟩, ⟨1000000⟩, ⟨7⟩⟩, ⟨⟨1⟩, ⟨4294967295⟩, ⟨7⟩⟩, ⟨⟨2⟩, ⟨1000000⟩, ⟨4294967295⟩⟩] := by
    decide +kernel
  refine ⟨hm, ?_, ?_, hPositions⟩
  · refine StateSet.eq_of_contains_iff fun s => ?_
    rw [hSome, hTransitions]
    simp [X, StateSet.ofNumbers, StateSet.contains_ofList, eq_comm (b := s)]
  · refine StateSet.eq_of_contains_iff fun s => ?_
    have hNe : s = ⟨4294967295⟩ → s ≠ ⟨1000000⟩ := by
      rintro rfl
      decide
    rw [hAll, hTransitions]
    simp [X, StateSet.ofNumbers, StateSet.contains_ofList, eq_comm (b := s)]
    tauto

end BranchingTime.Model
