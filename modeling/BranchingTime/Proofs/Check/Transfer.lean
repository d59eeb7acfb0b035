import BranchingTime.Proofs.Check.Expansion
import BranchingTime.Proofs.Formula.Layout
import Mathlib.Algebra.Ring.Parity

/-!
# BranchingTime — carrying verdicts from one model to another

Two models are compared by a relation between their states under which each step
is matched by a step of the other. Untils go from the first model to the second
by induction (what holds of a state holds of all states related to it), always
operators by coinduction (what holds of a related state holds of the state).

Negations and antecedents turn the direction around. So for a whole formula it
depends on each occurrence of an atom in which direction the atom has to go.

## Results

* `StepsMatch.onSteps`, `StepsMatch.onPaths_until`, `StepsMatch.onPaths_always` — the
  transfers, one for each kind of path property.
* `StepsMatch.satisfies_of_occurrences` — all formulas.
-/

namespace BranchingTime

-- ---------------------------------------------------------------------------
-- Occurrences of atoms
-- ---------------------------------------------------------------------------

/-- An occurrence of an atom in a formula: its name, and the number of negations
and of antecedents of implications that it stands under. -/
structure Occurrence where
  name : String
  flips : Nat
deriving DecidableEq

/-- The occurrence under one more negation. -/
def Occurrence.deeper (o : Occurrence) : Occurrence :=
  { o with flips := o.flips + 1 }

/-- The occurrences of atoms in a formula, from those in the operands of its root. -/
def Node.occurrences : Node (List Occurrence) → List Occurrence
  | .atom name => [⟨name, 0⟩]
  | .not φ => φ.map Occurrence.deeper
  | .connective .and φ ψ => φ ++ ψ
  | .connective .or φ ψ => φ ++ ψ
  | .connective .implies φ ψ => φ.map Occurrence.deeper ++ ψ
  | .temporal _ _ φ => φ
  | .untl _ φ ψ => φ ++ ψ

/-- The occurrences of atoms in a formula, left to right. -/
def Formula.occurrences (f : Formula) : List Occurrence :=
  f.fold Node.occurrences

namespace Tree

/-- The occurrences of atoms in a tree, left to right. -/
def occurrences (t : Tree) : List Occurrence :=
  t.fold Node.occurrences

theorem occurrences_layout (t : Tree) : t.layout.occurrences = t.occurrences :=
  fold_layout _ t

/-- Each atom is listed once for each of its occurrences. -/
theorem map_name_occurrences (t : Tree) : t.occurrences.map Occurrence.name = t.atoms := by
  have hDeeper (φ : List Occurrence) :
      (φ.map Occurrence.deeper).map Occurrence.name = φ.map Occurrence.name := by
    rw [List.map_map]
    rfl
  unfold occurrences
  induction t with
  | atom name => rfl
  | not t ih => rw [fold, Node.occurrences, hDeeper, ih, atoms]
  | connective op t u iht ihu =>
    cases op <;> simp only [fold, Node.occurrences, List.map_append, hDeeper, iht, ihu, atoms]
  | temporal q p t ih => exact ih
  | untl q t u iht ihu => rw [fold, Node.occurrences, List.map_append, iht, ihu, atoms]

theorem name_mem_atoms {t : Tree} {o : Occurrence} (ho : o ∈ t.occurrences) : o.name ∈ t.atoms := by
  rw [← map_name_occurrences]
  exact List.mem_map_of_mem ho

end Tree

namespace Model

-- ---------------------------------------------------------------------------
-- Matching steps
-- ---------------------------------------------------------------------------

/-- Each step from one of two related states is matched by a step from the other. -/
structure StepsMatch (m n : Model) (R : StateId → StateId → Prop) : Prop where
  forth : ∀ {s t s'}, R s t → m.Step s s' → ∃ t', n.Step t t' ∧ R s' t'
  back : ∀ {s t t'}, R s t → n.Step t t' → ∃ s', m.Step s s' ∧ R s' t'

namespace StepsMatch

variable {m n : Model} {R : StateId → StateId → Prop} (hMatch : StepsMatch m n R)
include hMatch

theorem symm : StepsMatch n m fun t s => R s t :=
  ⟨hMatch.back, hMatch.forth⟩

theorem isDeadEnd {s t : StateId} (hst : R s t) (hDead : m.IsDeadEnd s) : n.IsDeadEnd t := by
  intro t' hStep
  obtain ⟨s', hStep', -⟩ := hMatch.back hst hStep
  exact hDead s' hStep'

section Transfer

variable {P Q P' Q' : StateId → Prop} (hP : ∀ s t, R s t → P s → P' t)
variable {s t : StateId}
include hP

theorem onSteps (q : Quantifier) (hst : R s t) (h : m.OnSteps q s P) : n.OnSteps q t P' := by
  cases q with
  | some =>
    obtain ⟨s', hStep, hHere⟩ := h
    obtain ⟨t', hStep', hst'⟩ := hMatch.forth hst hStep
    exact ⟨t', hStep', hP s' t' hst' hHere⟩
  | all =>
    intro t' hStep'
    obtain ⟨s', hStep, hst'⟩ := hMatch.back hst hStep'
    exact hP s' t' hst' (h s' hStep)

theorem onPaths_until (hQ : ∀ s t, R s t → Q s → Q' t) (q : Quantifier) (hst : R s t)
    (h : m.OnPaths q s (Until P Q)) : n.OnPaths q t (Until P' Q') := by
  cases q with
  | some =>
    refine of_onPaths_some_until
      (Y := fun s => ∀ t, R s t → n.OnPaths .some t (Until P' Q')) ?_ ?_ h t hst
    · intro s hGoal t hst
      exact onPaths_some_until.mpr (.inl (hQ s t hst hGoal))
    · intro s s' hAllowed hStep hNext t hst
      obtain ⟨t', hStep', hst'⟩ := hMatch.forth hst hStep
      exact onPaths_some_until.mpr (.inr ⟨hP s t hst hAllowed, t', hStep', hNext t' hst'⟩)
  | all =>
    refine of_onPaths_all_until
      (Y := fun s => ∀ t, R s t → n.OnPaths .all t (Until P' Q')) ?_ ?_ h t hst
    · intro s hGoal t hst
      exact onPaths_all_until.mpr (.inl (hQ s t hst hGoal))
    · rintro s hAllowed ⟨s', hStep⟩ hNext t hst
      obtain ⟨t', hStep', -⟩ := hMatch.forth hst hStep
      refine onPaths_all_until.mpr (.inr ⟨hP s t hst hAllowed, ⟨t', hStep'⟩, ?_⟩)
      intro u hu
      obtain ⟨v, hv, hvu⟩ := hMatch.back hst hu
      exact hNext v hv u hvu

theorem onPaths_always (q : Quantifier) (hst : R s t) (h : m.OnPaths q s (Always P)) :
    n.OnPaths q t (Always P') := by
  cases q with
  | some =>
    refine onPaths_some_always_of
      (Y := fun t => ∃ s, R s t ∧ m.OnPaths .some s (Always P)) ?_ ?_ ⟨s, hst, h⟩
    · rintro t ⟨s, hst, h⟩
      exact hP s t hst (onPaths_some_always.mp h).1
    · rintro t ⟨s, hst, h⟩
      rcases (onPaths_some_always.mp h).2 with ⟨s', hStep, h'⟩ | hDead
      · obtain ⟨t', hStep', hst'⟩ := hMatch.forth hst hStep
        exact .inl ⟨t', hStep', s', hst', h'⟩
      · exact .inr (hMatch.isDeadEnd hst hDead)
  | all =>
    refine onPaths_all_always_of
      (Y := fun t => ∃ s, R s t ∧ m.OnPaths .all s (Always P)) ?_ ?_ ⟨s, hst, h⟩
    · rintro t ⟨s, hst, h⟩
      exact hP s t hst (onPaths_all_always.mp h).1
    · rintro t t' ⟨s, hst, h⟩ hStep'
      obtain ⟨s', hStep, hst'⟩ := hMatch.back hst hStep'
      exact ⟨s', hst', (onPaths_all_always.mp h).2 s' hStep⟩

end Transfer

end StepsMatch

-- ---------------------------------------------------------------------------
-- Whole formulas
-- ---------------------------------------------------------------------------

/-- The atom goes from states of `m` to related states of `n` if it occurs under an
even number of negations, and back if under an odd number. -/
def TransfersAtom (m n : Model) (R : StateId → StateId → Prop) (o : Occurrence) : Prop :=
  ∀ x y, R x y →
    (Even o.flips → m.Satisfies (.atom o.name) x → n.Satisfies (.atom o.name) y) ∧
    (Odd o.flips → n.Satisfies (.atom o.name) y → m.Satisfies (.atom o.name) x)

theorem TransfersAtom.of_deeper {m n : Model} {R : StateId → StateId → Prop} {o : Occurrence}
    (h : TransfersAtom m n R o.deeper) : TransfersAtom n m (fun y x => R x y) o := by
  intro y x hxy
  obtain ⟨hForth, hBack⟩ := h x y hxy
  exact ⟨fun hEven => hBack hEven.add_one, fun hOdd => hForth hOdd.add_one⟩

/-- If all atoms go in the direction that their occurrences ask for, the formula
goes from the first model to the second. -/
theorem StepsMatch.satisfies_of_occurrences {m n : Model} {R : StateId → StateId → Prop}
    (hMatch : StepsMatch m n R) {t : Tree} (hAtoms : ∀ o ∈ t.occurrences, TransfersAtom m n R o) :
    ∀ x y, R x y → m.Satisfies t x → n.Satisfies t y := by
  induction t generalizing m n R with
  | atom name =>
    intro x y hxy
    exact (hAtoms ⟨name, 0⟩ (List.mem_singleton_self _) x y hxy).1 Even.zero
  | not t ih =>
    have hBack := ih hMatch.symm fun o ho => (hAtoms _ (List.mem_map_of_mem ho)).of_deeper
    intro x y hxy hNot hHere
    exact hNot (hBack y x hxy hHere)
  | connective op t u iht ihu =>
    intro x y hxy
    cases op with
    | and =>
      have hLeft := iht hMatch fun o ho => hAtoms o (List.mem_append_left _ ho)
      have hRight := ihu hMatch fun o ho => hAtoms o (List.mem_append_right _ ho)
      exact And.imp (hLeft x y hxy) (hRight x y hxy)
    | or =>
      have hLeft := iht hMatch fun o ho => hAtoms o (List.mem_append_left _ ho)
      have hRight := ihu hMatch fun o ho => hAtoms o (List.mem_append_right _ ho)
      exact Or.imp (hLeft x y hxy) (hRight x y hxy)
    | implies =>
      -- the antecedent goes back, as under a negation
      have hBack := iht hMatch.symm fun o ho =>
        (hAtoms _ (List.mem_append_left _ (List.mem_map_of_mem ho))).of_deeper
      have hRight := ihu hMatch fun o ho => hAtoms o (List.mem_append_right _ ho)
      intro hImplies hHere
      exact hRight x y hxy (hImplies (hBack y x hxy hHere))
  | temporal q p t ih =>
    have hOperand := ih hMatch hAtoms
    intro x y hxy
    cases p with
    | next => exact hMatch.onSteps hOperand q hxy
    | eventually =>
      simp only [Satisfies, eventually_eq_until]
      exact hMatch.onPaths_until (fun _ _ _ => id) hOperand q hxy
    | always => exact hMatch.onPaths_always hOperand q hxy
  | untl q t u iht ihu =>
    have hLeft := iht hMatch fun o ho => hAtoms o (List.mem_append_left _ ho)
    have hRight := ihu hMatch fun o ho => hAtoms o (List.mem_append_right _ ho)
    intro x y hxy
    exact hMatch.onPaths_until hLeft hRight q hxy

end Model

end BranchingTime
