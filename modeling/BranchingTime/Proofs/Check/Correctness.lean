import BranchingTime.Check.Satisfaction
import BranchingTime.Proofs.Check.Fixpoints
import BranchingTime.Proofs.Formula.Language
import BranchingTime.Proofs.StateSet

/-!
# BranchingTime — the checker finds the states that satisfy a formula

Each node of a formula is evaluated to the positions of the states with the
property that the node stands for, if its operands were. So the set found for
the root represents the whole formula.

## Results

* `represents_fold` — evaluating a tree gives the states that satisfy it.
* `contains_satisfying_iff` — hence the checker's answer for every formula on
  every model that a builder makes.
-/

namespace BranchingTime.Model

section Evaluation

variable {m : Model} {accepted : List Builder.Call} (hm : m.IsBuiltFrom accepted)
variable {X Y : BitSet} {P Q : StateId → Prop}
include hm

-- ---------------------------------------------------------------------------
-- One operator
-- ---------------------------------------------------------------------------

theorem represents_atom (name : String) :
    m.Represents (m.evaluateNode (.atom name)).satisfying (m.Satisfies (.atom name)) := by
  refine represents_positionsWhere hm ?_
  intro s hs
  rw [State.hasLabel, List.contains_iff_mem]
  constructor
  · intro hLabel
    exact ⟨s, hs, rfl, hLabel⟩
  · rintro ⟨t, ht, hId, hLabel⟩
    rwa [hm.state_unique ht hs hId] at hLabel

theorem Represents.next (h : m.Represents X P) (q : Quantifier) :
    m.Represents (m.evaluateTemporal q .next X).satisfying fun s => m.OnSteps q s P := by
  cases q with
  | some => exact h.pre_some hm
  | all =>
    refine (((h.complement hm).pre_some hm).complement hm).congr hm fun s _ _ => ?_
    simp [OnSteps]

theorem Represents.eventually (h : m.Represents X P) (q : Quantifier) :
    m.Represents (m.evaluateTemporal q .eventually X).satisfying
      fun s => m.OnPaths q s (Eventually P) := by
  cases q with
  | some =>
    have hReach := represents_someUntil hm (represents_allPositions hm) h
    simp only [evaluateTemporal]
    exact hReach.congr hm fun _ _ _ => exists_eventually_iff.symm
  | all =>
    have hForced := represents_allEventually hm h
    simp only [evaluateTemporal]
    exact hForced.congr hm fun _ _ _ => forall_eventually_iff.symm

theorem Represents.always (h : m.Represents X P) (q : Quantifier) :
    m.Represents (m.evaluateTemporal q .always X).satisfying
      fun s => m.OnPaths q s (Always P) := by
  have hNot := h.complement hm
  cases q with
  | some =>
    have hForced := represents_allEventually hm hNot
    simp only [evaluateTemporal, outside]
    exact (hForced.complement hm).congr hm fun _ _ _ => exists_always_iff.symm
  | all =>
    have hReach := represents_someUntil hm (represents_allPositions hm) hNot
    simp only [evaluateTemporal, outside]
    exact (hReach.complement hm).congr hm fun _ _ _ => forall_always_iff.symm

theorem Represents.untl (hX : m.Represents X P) (hY : m.Represents Y Q) (q : Quantifier) :
    m.Represents (m.evaluateUntl q X Y).satisfying fun s => m.OnPaths q s (Until P Q) := by
  cases q with
  | some =>
    have hReach := represents_someUntil hm hX hY
    simp only [evaluateUntl]
    exact hReach.congr hm fun _ _ _ => exists_until_iff.symm
  | all =>
    have hNotY := hY.complement hm
    have hViolated := represents_someUntil hm hNotY ((hX.complement hm).inter hm hNotY)
    have hAvoided := (represents_allEventually hm (hNotY.complement hm)).complement hm
    simp only [evaluateUntl]
    refine ((hViolated.union hm hAvoided).complement hm).congr hm fun s _ _ => ?_
    simp only [OnPaths, forall_until_iff, Classical.not_not, not_or]

theorem represents_connective (op : Connective) (hX : m.Represents X P) (hY : m.Represents Y Q) :
    m.Represents (m.evaluateConnective op X Y) fun s =>
      match op with
      | .and => P s ∧ Q s
      | .or => P s ∨ Q s
      | .implies => P s → Q s := by
  cases op with
  | and => exact hX.inter hm hY
  | or => exact hX.union hm hY
  | implies =>
    refine ((hX.complement hm).union hm hY).congr hm fun s _ _ => ?_
    by_cases hP : P s <;> simp [hP]

-- ---------------------------------------------------------------------------
-- Whole formulas
-- ---------------------------------------------------------------------------

/-- Evaluating a tree gives the states that satisfy it. -/
theorem represents_fold (t : Tree) :
    m.Represents (t.fold fun node => (m.evaluateNode node).satisfying) (m.Satisfies t) := by
  induction t with
  | atom name => exact represents_atom hm name
  | not t ih => exact ih.complement hm
  | connective op t u iht ihu =>
    have hConnective := represents_connective hm op iht ihu
    cases op <;> exact hConnective
  | temporal q p t ih =>
    cases p with
    | next => exact ih.next hm q
    | eventually => exact ih.eventually hm q
    | always => exact ih.always hm q
  | untl q t u iht ihu => exact iht.untl hm ihu q

omit hm in
/-- Keeping the evaluations does not change what is found. -/
theorem collapse_recordNode (t : Tree) (evaluations : Array Evaluation) :
    (t.collapse m.recordNode evaluations).1 =
      t.fold fun node => (m.evaluateNode node).satisfying := by
  induction t generalizing evaluations with
  | atom name => rfl
  | not t ih => simp only [Tree.collapse, Tree.fold, recordNode, ih]
  | connective op t u iht ihu => simp only [Tree.collapse, Tree.fold, recordNode, iht, ihu]
  | temporal q p t ih => simp only [Tree.collapse, Tree.fold, recordNode, ih]
  | untl q t u iht ihu => simp only [Tree.collapse, Tree.fold, recordNode, iht, ihu]

theorem Represents.contains_toStateSet (h : m.Represents X P) {s : StateId} :
    (m.toStateSet X).contains s = true ↔ m.contains s = true ∧ P s := by
  rw [toStateSet, StateSet.contains_ofList, List.mem_filterMap, contains, Option.isSome_iff_exists]
  constructor
  · rintro ⟨i, hi, hAt⟩
    have hPosition : m.position? s = some i := (hm.index s i).mpr hAt
    exact ⟨⟨i, hPosition⟩, (h.contains_iff hm hPosition).mp (BitSet.mem_toList.mp hi)⟩
  · rintro ⟨⟨i, hPosition⟩, hP⟩
    exact ⟨i, BitSet.mem_toList.mpr ((h.contains_iff hm hPosition).mpr hP),
      (hm.index s i).mp hPosition⟩

theorem contains_satisfying_layout (t : Tree) (s : StateId) :
    (m.satisfying t.layout).contains s = true ↔ m.contains s = true ∧ m.Satisfies t s := by
  have hRoot : (m.satisfying t.layout) =
      m.toStateSet (t.fold fun node => (m.evaluateNode node).satisfying) := by
    rw [satisfying, check, Tree.collapse_layout, ← collapse_recordNode t #[]]
  rw [hRoot]
  exact (represents_fold hm t).contains_toStateSet hm

end Evaluation

/-- The state satisfies the tree that the formula lays out. -/
def SatisfiesFormula (m : Model) (f : Formula) (s : StateId) : Prop :=
  ∃ t : Tree, f = t.layout ∧ m.Satisfies t s

theorem satisfiesFormula_layout {m : Model} {t : Tree} {s : StateId} :
    m.SatisfiesFormula t.layout s ↔ m.Satisfies t s := by
  constructor
  · rintro ⟨u, hLayout, hSatisfies⟩
    rwa [Tree.layout_injective hLayout]
  · exact fun hSatisfies => ⟨t, rfl, hSatisfies⟩

/-- **Correctness of the checker.** Take any model that a builder makes, with
refused calls passed over, and any formula that parsing and building lead to.
The formula lays out one tree, and the states that the checker finds are those
states of the model that satisfy this tree on their maximal paths. -/
theorem contains_satisfying_iff (calls : List Builder.Call) {f : Formula} (hf : f.IsObtained) :
    let m := (Builder.attemptAll {} calls).1.build
    ∃ t : Tree, (∀ u : Tree, u.layout = f ↔ u = t) ∧
      ∀ s, (m.satisfying f).contains s = true ↔ m.contains s = true ∧ m.Satisfies t s := by
  intro m
  have hm : m.IsBuiltFrom (Builder.acceptedCalls {} calls) :=
    Builder.isBuiltFrom_build (Builder.reflects_attemptAll Builder.reflects_empty calls)
  obtain ⟨t, rfl⟩ := hf.exists_layout
  refine ⟨t, ?_, contains_satisfying_layout hm t⟩
  intro u
  constructor
  · exact Tree.layout_injective
  · rintro rfl
    rfl

/-- In `0 → 1`, where `1` is a dead end that carries `p`, the dead end satisfies
`AX q AND AF p`, and `0` does not. -/
theorem satisfies_dead_end :
    let calls : List Builder.Call :=
      [.state ⟨0⟩, .state ⟨1⟩, .transition ⟨⟨7⟩, ⟨0⟩, ⟨1⟩⟩, .label ⟨1⟩ "p"]
    let m := (Builder.attemptAll {} calls).1.build
    let f := ((Formula.atom "q").temporal .all .next).connect .and
      ((Formula.atom "p").temporal .all .eventually)
    let t : Tree := .connective .and (.temporal .all .next (.atom "q"))
      (.temporal .all .eventually (.atom "p"))
    f.IsObtained ∧ m.Satisfies t ⟨1⟩ ∧ ¬ m.Satisfies t ⟨0⟩ := by
  intro calls m f t
  have hObtained : f.IsObtained :=
    .connect .and (.temporal .all .next (.atom "q")) (.temporal .all .eventually (.atom "p"))
  obtain ⟨u, hTree, hStates⟩ := contains_satisfying_iff calls hObtained
  obtain rfl : t = u := (hTree t).mp rfl
  -- sorting does not compute, but the states were declared in order
  have hSorted : (Builder.attemptAll {} calls).1.sortedStates =
      [{ id := ⟨0⟩, outgoing := [0] }, { id := ⟨1⟩, labels := ["p"] }] :=
    List.mergeSort_of_pairwise (by decide +kernel)
  have hFound : (m.satisfying f).members = [⟨1⟩] := by
    simp only [m, Builder.build, hSorted]
    decide +kernel
  have hContains : m.contains ⟨0⟩ = true := by
    simp only [m, Builder.build, hSorted]
    decide +kernel
  refine ⟨hObtained, ((hStates ⟨1⟩).mp ?_).2, ?_⟩
  · rw [StateSet.contains_iff_mem, hFound]
    exact List.mem_singleton.mpr rfl
  · intro hZero
    have hMember := (hStates ⟨0⟩).mpr ⟨hContains, hZero⟩
    rw [StateSet.contains_iff_mem, hFound, List.mem_singleton] at hMember
    cases hMember

end BranchingTime.Model
