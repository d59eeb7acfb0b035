import BranchingTime.Proofs.Check.Predecessors
import BranchingTime.Proofs.Check.Transfer
import BranchingTime.Proofs.Formula.Arena

/-!
# BranchingTime — bisimilar states have the same verdicts

A verdict depends on the labels that the formula mentions and on which states
can be told apart by walking along transitions; not on identifiers, on the order
or the number of states, or on states that cannot be reached.

The two models are compared by their steps. A relation that matches steps can be
turned around, so what transfers in one direction transfers in both.

## Results

* `StepsMatch.satisfies_iff` — related states satisfy the same formulas.
* `contains_satisfying_bisimilar` — the verdicts of the checker.
-/

namespace BranchingTime.Model

/-- The state `s` carries the label `name`. -/
def Carries (m : Model) (s : StateId) (name : String) : Prop :=
  ∃ labels, m.labelsOf? s = some labels ∧ name ∈ labels

/-- `R` relates states of `m` to states of `n` that carry the same of the labels
`names`, and each successor of one is related to a successor of the other. -/
structure IsBisimulation (m n : Model) (names : List String) (R : StateId → StateId → Prop) :
    Prop where
  contains : ∀ s t, R s t → m.contains s = true ∧ n.contains t = true
  labels : ∀ s t, R s t → ∀ name ∈ names, m.Carries s name ↔ n.Carries t name
  forth : ∀ s t, R s t → ∀ s' ∈ m.successorsOf s, ∃ t' ∈ n.successorsOf t, R s' t'
  back : ∀ s t, R s t → ∀ t' ∈ n.successorsOf t, ∃ s' ∈ m.successorsOf s, R s' t'

/-- `n` has a copy `copy s` of each state `s` of `m`, with the same of the labels
`names` and with the copies of its successors as successors. It may have more
states, which may lead to the copies. -/
structure IsCopied (m n : Model) (names : List String) (copy : StateId → StateId) : Prop where
  contains : ∀ s, m.contains s = true → n.contains (copy s) = true
  labels : ∀ s, m.contains s = true → ∀ name ∈ names, m.Carries s name ↔ n.Carries (copy s) name
  successors : ∀ s, m.contains s = true →
    ∀ t, t ∈ n.successorsOf (copy s) ↔ t ∈ (m.successorsOf s).map copy

/-- If related states carry the same of the labels that a formula mentions, they
satisfy the formula alike. -/
theorem StepsMatch.satisfies_iff {m n : Model} {R : StateId → StateId → Prop}
    (hMatch : StepsMatch m n R) {t : Tree}
    (hLabels : ∀ name ∈ t.atoms, ∀ x y, R x y →
      (m.Satisfies (.atom name) x ↔ n.Satisfies (.atom name) y)) :
    ∀ x y, R x y → (m.Satisfies t x ↔ n.Satisfies t y) := by
  have hForth : ∀ o ∈ t.occurrences, TransfersAtom m n R o := by
    intro o ho x y hxy
    have hSame := hLabels o.name (Tree.name_mem_atoms ho) x y hxy
    exact ⟨fun _ => hSame.mp, fun _ => hSame.mpr⟩
  have hBack : ∀ o ∈ t.occurrences, TransfersAtom n m (fun y x => R x y) o := by
    intro o ho y x hxy
    have hSame := hLabels o.name (Tree.name_mem_atoms ho) x y hxy
    exact ⟨fun _ => hSame.mpr, fun _ => hSame.mp⟩
  intro x y hxy
  exact ⟨hMatch.satisfies_of_occurrences hForth x y hxy,
    hMatch.symm.satisfies_of_occurrences hBack y x hxy⟩

-- ---------------------------------------------------------------------------
-- Built models
-- ---------------------------------------------------------------------------

section Built

variable {m : Model} {accepted : List Builder.Call} (hm : m.IsBuiltFrom accepted)
include hm

theorem mem_successorsOf {s t : StateId} : t ∈ m.successorsOf s ↔ m.Step s t := by
  rw [successorsOf, hm.transitionsOf]
  simp only [List.mem_map, List.mem_filter, Array.mem_toList_iff, beq_iff_eq, Step, and_assoc]

theorem carries_iff {s : StateId} {name : String} :
    m.Carries s name ↔ m.Satisfies (.atom name) s := by
  simp only [Carries, hm.labelsOf?_eq_some_iff, Satisfies]
  constructor
  · rintro ⟨_, ⟨state, hState, hId, rfl⟩, hName⟩
    exact ⟨state, hState, hId, hName⟩
  · rintro ⟨state, hState, hId, hName⟩
    exact ⟨state.labels, ⟨state, hState, hId, rfl⟩, hName⟩

end Built

section Pair

variable {m n : Model} {names : List String}

theorem IsCopied.isBisimulation {accepted : List Builder.Call} (hm : m.IsBuiltFrom accepted)
    {copy : StateId → StateId} (hCopied : IsCopied m n names copy) :
    IsBisimulation m n names fun s t => m.contains s = true ∧ copy s = t := by
  -- successors stay in the model, so that they have copies too
  have hInside (s s' : StateId) (h : s' ∈ m.successorsOf s) : m.contains s' = true :=
    (contains_of_step hm ((mem_successorsOf hm).mp h)).2
  constructor
  case contains =>
    rintro s _ ⟨hs, rfl⟩
    exact ⟨hs, hCopied.contains s hs⟩
  case labels =>
    rintro s _ ⟨hs, rfl⟩
    exact hCopied.labels s hs
  case forth =>
    rintro s _ ⟨hs, rfl⟩ s' hs'
    have hSuccessor := (hCopied.successors s hs (copy s')).mpr (List.mem_map_of_mem hs')
    exact ⟨copy s', hSuccessor, hInside s s' hs', rfl⟩
  case back =>
    rintro s _ ⟨hs, rfl⟩ t' ht'
    obtain ⟨s', hs', rfl⟩ := List.mem_map.mp ((hCopied.successors s hs t').mp ht')
    exact ⟨s', hs', hInside s s' hs', rfl⟩

variable {accepted others : List Builder.Call} (hm : m.IsBuiltFrom accepted)
variable (hn : n.IsBuiltFrom others)
include hm hn

theorem IsBisimulation.stepsMatch {R : StateId → StateId → Prop}
    (hR : IsBisimulation m n names R) : StepsMatch m n R := by
  have hForth := hR.forth
  have hBack := hR.back
  simp only [mem_successorsOf hm, mem_successorsOf hn] at hForth hBack
  exact ⟨fun hst hStep => hForth _ _ hst _ hStep, fun hst hStep => hBack _ _ hst _ hStep⟩

theorem IsBisimulation.contains_satisfying_iff_layout {t : Tree} {R : StateId → StateId → Prop}
    (hR : IsBisimulation m n t.layout.atoms R) {x y : StateId} (hxy : R x y) :
    (m.satisfying t.layout).contains x = true ↔ (n.satisfying t.layout).contains y = true := by
  have hLabels : ∀ name ∈ t.atoms, ∀ x y, R x y →
      (m.Satisfies (.atom name) x ↔ n.Satisfies (.atom name) y) := by
    intro name hName x y hxy
    rw [← carries_iff hm, ← carries_iff hn]
    exact hR.labels x y hxy name (Tree.mem_atoms_layout.mpr hName)
  obtain ⟨hx, hy⟩ := hR.contains x y hxy
  rw [contains_satisfying_layout hm, contains_satisfying_layout hn, and_iff_right hx,
    and_iff_right hy]
  exact (hR.stepsMatch hm hn).satisfies_iff hLabels x y hxy

end Pair

/-- **Bisimulation invariance.** States of two built models that a bisimulation
for the labels of a formula relates have the same verdict. In particular a state
has the verdict of its copy in any model that copies its own: whether states are
renumbered, unreachable states are added or other labels are changed. -/
theorem contains_satisfying_bisimilar {m n : Model} (hm : m.IsBuilt) (hn : n.IsBuilt) {f : Formula}
    (hf : f.IsObtained) :
    (∀ R, IsBisimulation m n f.atoms R → ∀ s t, R s t →
      ((m.satisfying f).contains s = true ↔ (n.satisfying f).contains t = true)) ∧
    ∀ copy, IsCopied m n f.atoms copy → ∀ s, m.contains s = true →
      ((m.satisfying f).contains s = true ↔ (n.satisfying f).contains (copy s) = true) := by
  obtain ⟨accepted, hm⟩ := hm.exists_isBuiltFrom
  obtain ⟨others, hn⟩ := hn.exists_isBuiltFrom
  obtain ⟨t, rfl⟩ := hf.exists_layout
  constructor
  · intro R hR x y hxy
    exact hR.contains_satisfying_iff_layout hm hn hxy
  · intro copy hCopied x hx
    exact (hCopied.isBisimulation hm).contains_satisfying_iff_layout hm hn ⟨hx, rfl⟩

/-- A loop at `0`, to which `3` leads, and a cycle of `5` and `9` with one more
label: the loop is bisimilar to the cycle for `EG p`, and holds copies of it. -/
theorem bisimilar_loop_and_cycle :
    let loopCalls : List Builder.Call := [.state ⟨0⟩, .state ⟨3⟩, .transition ⟨⟨0⟩, ⟨0⟩, ⟨0⟩⟩,
      .transition ⟨⟨1⟩, ⟨3⟩, ⟨0⟩⟩, .label ⟨0⟩ "p"]
    let cycleCalls : List Builder.Call := [.state ⟨5⟩, .state ⟨9⟩, .transition ⟨⟨0⟩, ⟨9⟩, ⟨5⟩⟩,
      .transition ⟨⟨1⟩, ⟨5⟩, ⟨9⟩⟩, .label ⟨5⟩ "p", .label ⟨9⟩ "p", .label ⟨5⟩ "r"]
    let loop := (Builder.attemptAll {} loopCalls).1.build
    let cycle := (Builder.attemptAll {} cycleCalls).1.build
    let f := (Formula.atom "p").temporal .some .always
    let R (s t : StateId) := s = ⟨0⟩ ∧ (t = ⟨5⟩ ∨ t = ⟨9⟩)
    let copy (_ : StateId) : StateId := ⟨0⟩
    IsBisimulation loop cycle f.atoms R ∧ IsCopied cycle loop f.atoms copy ∧
    (cycle.satisfying f).contains ⟨9⟩ = true ∧
    ((cycle.satisfying f).contains ⟨5⟩ = true ↔ (loop.satisfying f).contains ⟨0⟩ = true) := by
  intro loopCalls cycleCalls loop cycle f R copy
  have hm : loop.IsBuilt := ⟨loopCalls, rfl⟩
  have hn : cycle.IsBuilt := ⟨cycleCalls, rfl⟩
  have hf : f.IsObtained := .temporal .some .always (.atom "p")
  have hLoop : (Builder.attemptAll {} loopCalls).1.sortedStates =
      [{ id := ⟨0⟩, outgoing := [0], labels := ["p"] }, { id := ⟨3⟩, outgoing := [1] }] :=
    List.mergeSort_of_pairwise (by decide +kernel)
  have hCycle : (Builder.attemptAll {} cycleCalls).1.sortedStates =
      [{ id := ⟨5⟩, outgoing := [1], labels := ["p", "r"] },
        { id := ⟨9⟩, outgoing := [0], labels := ["p"] }] :=
    List.mergeSort_of_pairwise (by decide +kernel)
  have hAtoms : f.atoms = ["p"] := by decide +kernel
  have hZero : loop.contains ⟨0⟩ = true ∧ loop.labelsOf? ⟨0⟩ = some ["p"] ∧
      loop.successorsOf ⟨0⟩ = [⟨0⟩] ∧ (loop.satisfying f).contains ⟨0⟩ = true := by
    simp only [loop, Builder.build, hLoop]
    decide +kernel
  have hFive : cycle.contains ⟨5⟩ = true ∧ cycle.labelsOf? ⟨5⟩ = some ["p", "r"] ∧
      cycle.successorsOf ⟨5⟩ = [⟨9⟩] := by
    simp only [cycle, Builder.build, hCycle]
    decide +kernel
  have hNine : cycle.contains ⟨9⟩ = true ∧ cycle.labelsOf? ⟨9⟩ = some ["p"] ∧
      cycle.successorsOf ⟨9⟩ = [⟨5⟩] := by
    simp only [cycle, Builder.build, hCycle]
    decide +kernel
  have hIndex : cycle.index = [(⟨5⟩, 0), (⟨9⟩, 1)] := by
    simp only [cycle, Builder.build, hCycle]
    decide +kernel
  have hOnly (s : StateId) (hs : cycle.contains s = true) : s = ⟨5⟩ ∨ s = ⟨9⟩ := by
    rw [contains, position?, hIndex] at hs
    grind
  have hR : IsBisimulation loop cycle f.atoms R := by
    constructor <;> rintro s t ⟨rfl, rfl | rfl⟩ <;>
      simp [R, Carries, hAtoms, hZero, hFive, hNine]
  have hCopied : IsCopied cycle loop f.atoms copy := by
    constructor <;> intro s hs <;> rcases hOnly s hs with rfl | rfl <;>
      simp [copy, Carries, hAtoms, hZero, hFive, hNine]
  have hVerdict := (contains_satisfying_bisimilar hm hn hf).1 R hR ⟨0⟩ ⟨9⟩ ⟨rfl, .inr rfl⟩
  have hCopy := (contains_satisfying_bisimilar hn hm hf).2 copy hCopied ⟨5⟩ hFive.1
  exact ⟨hR, hCopied, hVerdict.mp hZero.2.2.2, hCopy⟩

end BranchingTime.Model
