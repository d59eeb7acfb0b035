import BranchingTime.Proofs.Check.Bisimulation

/-!
# BranchingTime — more labels, more states

Giving more labels to the states of a model can only add states to what a formula
finds, as long as every atom of the formula stands under an even number of
negations; if every atom stands under an odd number, it can only take states away.
The paths are the same in both models, so each state is compared with itself. How
the checker gets an operator, with how many complements and in how many steps,
plays no part.

## Results

* `satisfying_le_of_occurrences` — models that differ in labels only, each atom in
  the direction that its occurrences ask for.
* `satisfying_monotone` — labels that grow.
-/

namespace BranchingTime.Model

/-- The models have the same states and transitions, and each state has its labels
of `m` in `n` too. -/
structure LabelsGrow (m n : Model) : Prop where
  states : ∀ id, m.contains id = n.contains id
  transitions : ∀ t, t ∈ m.transitions ↔ t ∈ n.transitions
  labels : ∀ id name, m.Carries id name → n.Carries id name

section Pair

variable {m n : Model}

/-- With the same transitions, each state matches itself. -/
theorem stepsMatch_of_transitions (h : ∀ t, t ∈ m.transitions ↔ t ∈ n.transitions) :
    StepsMatch m n Eq := by
  have hStep (s t : StateId) : m.Step s t ↔ n.Step s t := by
    simp only [Step, h]
  constructor
  · rintro s _ s' rfl hForth
    exact ⟨s', (hStep s s').mp hForth, rfl⟩
  · rintro s _ t' rfl hBack
    exact ⟨t', (hStep s t').mpr hBack, rfl⟩

variable {accepted others : List Builder.Call} (hm : m.IsBuiltFrom accepted)
variable (hn : n.IsBuiltFrom others)
include hm hn

theorem satisfying_le_of_occurrences (hStates : ∀ id, m.contains id = n.contains id)
    (hTransitions : ∀ t, t ∈ m.transitions ↔ t ∈ n.transitions) {t : Tree}
    (hAtoms : ∀ o ∈ t.occurrences, TransfersAtom m n Eq o) :
    m.satisfying t.layout ≤ n.satisfying t.layout := by
  have hMatch := stepsMatch_of_transitions hTransitions
  intro s hs
  rw [contains_satisfying_layout hm] at hs
  rw [contains_satisfying_layout hn, ← hStates]
  exact hs.imp_right (hMatch.satisfies_of_occurrences hAtoms s s rfl)

end Pair

/-- **Monotonicity in labels.** If two built models have the same states and
transitions, and the labels of each state grow from the first to the second, a
formula finds more states in the second if each atom occurs under an even number of
negations and antecedents only, and more in the first if under an odd number only. -/
theorem satisfying_monotone {m n : Model} (hm : m.IsBuilt) (hn : n.IsBuilt) (hGrow : LabelsGrow m n)
    {f : Formula} (hf : f.IsObtained) :
    ((∀ o ∈ f.occurrences, Even o.flips) → m.satisfying f ≤ n.satisfying f) ∧
    ((∀ o ∈ f.occurrences, Odd o.flips) → n.satisfying f ≤ m.satisfying f) := by
  obtain ⟨accepted, hm⟩ := hm.exists_isBuiltFrom
  obtain ⟨others, hn⟩ := hn.exists_isBuiltFrom
  obtain ⟨t, rfl⟩ := hf.exists_layout
  have hAtom (name : String) (s : StateId) :
      m.Satisfies (.atom name) s → n.Satisfies (.atom name) s := by
    rw [← carries_iff hm, ← carries_iff hn]
    exact hGrow.labels s name
  rw [Tree.occurrences_layout]
  constructor
  · intro hEven
    refine satisfying_le_of_occurrences hm hn hGrow.states hGrow.transitions ?_
    rintro o ho s _ rfl
    refine ⟨fun _ => hAtom o.name s, fun hOdd => ?_⟩
    exact absurd (hEven o ho) (Nat.not_even_iff_odd.mpr hOdd)
  · intro hOdd
    refine satisfying_le_of_occurrences hn hm (fun id => (hGrow.states id).symm)
      (fun t => (hGrow.transitions t).symm) ?_
    rintro o ho s _ rfl
    refine ⟨fun hEven => ?_, fun _ => hAtom o.name s⟩
    exact absurd hEven (Nat.not_even_iff_odd.mpr (hOdd o ho))

/-- In `0 → 1`, where `1` is a dead end that carries `p`: if `0` gets `p` too,
`NOT AF (NOT p)` still holds in `1`, and where `p IMPLIES NOT EX p` holds then, it
held before. -/
theorem satisfying_monotone_dead_end :
    let calls : List Builder.Call :=
      [.state ⟨0⟩, .state ⟨1⟩, .transition ⟨⟨7⟩, ⟨0⟩, ⟨1⟩⟩, .label ⟨1⟩ "p"]
    let m := (Builder.attemptAll {} calls).1.build
    let n := (Builder.attemptAll {} (calls ++ [.label ⟨0⟩ "p"])).1.build
    let p := Formula.atom "p"
    let f := (p.not.temporal .all .eventually).not
    let g := p.connect .implies (p.temporal .some .next).not
    LabelsGrow m n ∧ f.IsObtained ∧ g.IsObtained ∧
    f.occurrences = [⟨"p", 2⟩] ∧ g.occurrences = [⟨"p", 1⟩, ⟨"p", 1⟩] ∧
    (n.satisfying f).contains ⟨1⟩ = true ∧ (m.satisfying f).contains ⟨0⟩ = false ∧
    (m.satisfying g).contains ⟨1⟩ = true ∧ (n.satisfying g).contains ⟨0⟩ = false := by
  intro calls m n p f g
  have hm : m.IsBuilt := ⟨calls, rfl⟩
  have hn : n.IsBuilt := ⟨_, rfl⟩
  have hf : f.IsObtained := .not (.temporal .all .eventually (.not (.atom "p")))
  have hg : g.IsObtained :=
    .connect .implies (.atom "p") (.not (.temporal .some .next (.atom "p")))
  have hEven : f.occurrences = [⟨"p", 2⟩] := by decide +kernel
  have hOdd : g.occurrences = [⟨"p", 1⟩, ⟨"p", 1⟩] := by decide +kernel
  have hBefore : (Builder.attemptAll {} calls).1.sortedStates =
      [{ id := ⟨0⟩, outgoing := [0] }, { id := ⟨1⟩, labels := ["p"] }] :=
    List.mergeSort_of_pairwise (by decide +kernel)
  have hAfter : (Builder.attemptAll {} (calls ++ [.label ⟨0⟩ "p"])).1.sortedStates =
      [{ id := ⟨0⟩, outgoing := [0], labels := ["p"] }, { id := ⟨1⟩, labels := ["p"] }] :=
    List.mergeSort_of_pairwise (by decide +kernel)
  have hFirst : m.index = [(⟨0⟩, 0), (⟨1⟩, 1)] ∧ m.labelsOf? ⟨0⟩ = some [] ∧
      m.labelsOf? ⟨1⟩ = some ["p"] ∧ (m.satisfying f).members = [⟨1⟩] := by
    simp only [m, Builder.build, hBefore]
    decide +kernel
  have hSecond : n.index = [(⟨0⟩, 0), (⟨1⟩, 1)] ∧ n.labelsOf? ⟨0⟩ = some ["p"] ∧
      n.labelsOf? ⟨1⟩ = some ["p"] ∧ (n.satisfying g).members = [⟨1⟩] := by
    simp only [n, Builder.build, hAfter]
    decide +kernel
  have hGrow : LabelsGrow m n := by
    constructor
    case states =>
      intro id
      rw [contains, contains, position?, position?, hFirst.1, hSecond.1]
    case transitions =>
      have hSame : m.transitions = n.transitions := by decide +kernel
      rw [hSame]
      exact fun t => Iff.rfl
    case labels =>
      rintro id name ⟨labels, hLabels, hName⟩
      have hOnly : id = ⟨0⟩ ∨ id = ⟨1⟩ := by
        rw [labelsOf?, state?, position?, hFirst.1] at hLabels
        grind
      rcases hOnly with rfl | rfl
      · rw [hFirst.2.1] at hLabels
        simp_all
      · rw [hFirst.2.2.1] at hLabels
        exact ⟨labels, hSecond.2.2.1.trans hLabels, hName⟩
  have hMore := (satisfying_monotone hm hn hGrow hf).1 (by simp [hEven])
  have hFewer := (satisfying_monotone hm hn hGrow hg).2 (by simp [hOdd])
  refine ⟨hGrow, hf, hg, hEven, hOdd, hMore ⟨1⟩ ?_, ?_, hFewer ⟨1⟩ ?_, ?_⟩
  · rw [StateSet.contains_iff_mem, hFirst.2.2.2]
    exact List.mem_singleton.mpr rfl
  · rw [← Bool.not_eq_true, StateSet.contains_iff_mem, hFirst.2.2.2, List.mem_singleton]
    decide
  · rw [StateSet.contains_iff_mem, hSecond.2.2.2]
    exact List.mem_singleton.mpr rfl
  · rw [← Bool.not_eq_true, StateSet.contains_iff_mem, hSecond.2.2.2, List.mem_singleton]
    decide

end BranchingTime.Model
