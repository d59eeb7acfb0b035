import BranchingTime.Proofs.Check.Expansion
import BranchingTime.Proofs.Check.Predecessors
import BranchingTime.Proofs.Formula.Arena
import Mathlib.Order.Bounds.Defs

/-!
# BranchingTime — derived operators are fixpoints

The checker iterates for `E(φ U ψ)` and `AF φ` only, and gets the other
operators by complements, `A(φ U ψ)` even from two of them. All the same each
operator is the fixpoint, on sets of states, that its expansion law suggests:
the untils and eventualities are the least ones, the always operators the
greatest. Dead ends are where these could differ: they are in no set of
predecessors, so `EG` has to add them and `AF` must not.

## Results

* `isLeast_some_until`, `isLeast_all_until`, `isLeast_all_eventually`,
  `isGreatest_some_always`, `isGreatest_all_always` — one operator each.
* `satisfying_fixpoints` — all of them, for the formulas of a built model.
-/

namespace BranchingTime.Model

-- ---------------------------------------------------------------------------
-- Fixpoints on sets of states
-- ---------------------------------------------------------------------------

section Extremes

variable {next : StateSet → StateSet} {X whole : StateSet}
variable (hFixed : ∀ s, (next X).contains s = true ↔ X.contains s = true)
include hFixed

theorem isLeast_fixpoint
    (hLeast : ∀ Y, (∀ s, (next Y).contains s = true → Y.contains s = true) → X ≤ Y) :
    IsLeast {Y | next Y = Y} X := by
  refine ⟨StateSet.eq_of_contains_iff hFixed, ?_⟩
  intro Y (hY : next Y = Y)
  refine hLeast Y fun s hs => ?_
  rwa [hY] at hs

theorem isGreatest_fixpoint (hInside : X ≤ whole)
    (hGreatest : ∀ Y, (∀ s, Y.contains s = true → (next Y).contains s = true) → Y ≤ X) :
    IsGreatest {Y | Y ≤ whole ∧ next Y = Y} X := by
  refine ⟨⟨hInside, StateSet.eq_of_contains_iff hFixed⟩, ?_⟩
  rintro Y ⟨-, hY⟩
  refine hGreatest Y fun s hs => ?_
  rwa [hY]

end Extremes

section Operators

variable {m : Model} {accepted : List Builder.Call} (hm : m.IsBuiltFrom accepted)
include hm

/-- Trees that are satisfied in the same states are found in the same states. -/
theorem satisfying_congr {t u : Tree} (h : ∀ s, m.Satisfies t s ↔ m.Satisfies u s) :
    m.satisfying t.layout = m.satisfying u.layout := by
  refine StateSet.eq_of_contains_iff fun s => ?_
  rw [contains_satisfying_layout hm, contains_satisfying_layout hm, h]

-- ---------------------------------------------------------------------------
-- Least fixpoints
-- ---------------------------------------------------------------------------

section Least

variable (t u : Tree)

theorem isLeast_some_until :
    IsLeast {Y | (m.satisfying u.layout).union
        ((m.satisfying t.layout).inter (m.preStates .some Y)) = Y}
      (m.satisfying (Tree.untl .some t u).layout) := by
  refine isLeast_fixpoint ?_ ?_
  · intro s
    simp only [StateSet.contains_union, StateSet.contains_inter, contains_preStates_some hm,
      contains_satisfying_layout hm, Satisfies]
    rw [onPaths_some_until]
    grind [contains_of_step hm]
  · intro Y hY s hs
    simp only [StateSet.contains_union, StateSet.contains_inter, contains_preStates_some hm,
      contains_satisfying_layout hm] at hY
    obtain ⟨hIn, hUntil⟩ := (contains_satisfying_layout hm _ s).mp hs
    refine of_onPaths_some_until (Y := fun v => m.contains v = true → Y.contains v = true)
      ?_ ?_ hUntil hIn
    · intro v hGoal hvIn
      exact hY v (.inl ⟨hvIn, hGoal⟩)
    · intro v w hAllowed hStep hw hvIn
      have hwIn := (contains_of_step hm hStep).2
      exact hY v (.inr ⟨⟨hvIn, hAllowed⟩, w, hStep, hw hwIn⟩)

theorem isLeast_all_until :
    IsLeast {Y | (m.satisfying u.layout).union
        ((m.satisfying t.layout).inter (m.preStates .all Y)) = Y}
      (m.satisfying (Tree.untl .all t u).layout) := by
  refine isLeast_fixpoint ?_ ?_
  · intro s
    simp only [StateSet.contains_union, StateSet.contains_inter, contains_preStates_all hm,
      contains_satisfying_layout hm, Satisfies]
    rw [onPaths_all_until]
    grind [contains_of_step hm]
  · intro Y hY s hs
    simp only [StateSet.contains_union, StateSet.contains_inter, contains_preStates_all hm,
      contains_satisfying_layout hm] at hY
    obtain ⟨hIn, hUntil⟩ := (contains_satisfying_layout hm _ s).mp hs
    refine of_onPaths_all_until (Y := fun v => m.contains v = true → Y.contains v = true)
      ?_ ?_ hUntil hIn
    · intro v hGoal hvIn
      exact hY v (.inl ⟨hvIn, hGoal⟩)
    · intro v hAllowed hStep hAll hvIn
      refine hY v (.inr ⟨⟨hvIn, hAllowed⟩, hStep, fun w hw => ?_⟩)
      exact hAll w hw (contains_of_step hm hw).2

theorem isLeast_all_eventually :
    IsLeast {Y | (m.satisfying t.layout).union (m.preStates .all Y) = Y}
      (m.satisfying (Tree.temporal .all .eventually t).layout) := by
  refine isLeast_fixpoint ?_ ?_
  · intro s
    simp only [StateSet.contains_union, contains_preStates_all hm,
      contains_satisfying_layout hm, Satisfies]
    rw [onPaths_all_eventually]
    grind [contains_of_step hm]
  · intro Y hY s hs
    simp only [StateSet.contains_union, contains_preStates_all hm,
      contains_satisfying_layout hm] at hY
    obtain ⟨hIn, hEventually⟩ := (contains_satisfying_layout hm _ s).mp hs
    refine of_onPaths_all_eventually (Y := fun v => m.contains v = true → Y.contains v = true)
      ?_ ?_ hEventually hIn
    · intro v hGoal hvIn
      exact hY v (.inl ⟨hvIn, hGoal⟩)
    · intro v hStep hAll hvIn
      refine hY v (.inr ⟨hStep, fun w hw => ?_⟩)
      exact hAll w hw (contains_of_step hm hw).2

end Least

-- ---------------------------------------------------------------------------
-- Greatest fixpoints
-- ---------------------------------------------------------------------------

section Greatest

variable (t : Tree)

theorem satisfying_le_allStates : m.satisfying t.layout ≤ m.allStates := by
  intro s hs
  exact (contains_allStates hm).mpr ((contains_satisfying_layout hm t s).mp hs).1

theorem isGreatest_some_always :
    IsGreatest {Y | Y ≤ m.allStates ∧
        (m.satisfying t.layout).inter ((m.preStates .some Y).union m.deadlocks) = Y}
      (m.satisfying (Tree.temporal .some .always t).layout) := by
  have hMem (Y : StateSet) (s : StateId) :
      ((m.satisfying t.layout).inter ((m.preStates .some Y).union m.deadlocks)).contains s = true ↔
        (m.contains s = true ∧ m.Satisfies t s) ∧
          ((∃ v, m.Step s v ∧ Y.contains v = true) ∨ m.contains s = true ∧ m.IsDeadEnd s) := by
    rw [StateSet.contains_inter, StateSet.contains_union, contains_satisfying_layout hm,
      contains_preStates_some hm, contains_deadlocks hm]
    rfl
  refine isGreatest_fixpoint ?_ (satisfying_le_allStates hm _) ?_
  · intro s
    simp only [hMem, contains_satisfying_layout hm, Satisfies]
    rw [onPaths_some_always]
    grind [contains_of_step hm]
  · intro Y hY s hs
    simp only [hMem] at hY
    refine (contains_satisfying_layout hm _ s).mpr ⟨(hY s hs).1.1, ?_⟩
    refine onPaths_some_always_of (Y := fun v => Y.contains v = true) ?_ ?_ hs
    · intro v hv
      exact (hY v hv).1.2
    · intro v hv
      exact (hY v hv).2.imp id And.right

theorem isGreatest_all_always :
    IsGreatest {Y | Y ≤ m.allStates ∧ (m.satisfying t.layout).inter
        (m.allStates.diff (m.preStates .some (m.allStates.diff Y))) = Y}
      (m.satisfying (Tree.temporal .all .always t).layout) := by
  have hMem (Y : StateSet) (s : StateId) :
      ((m.satisfying t.layout).inter
        (m.allStates.diff (m.preStates .some (m.allStates.diff Y)))).contains s = true ↔
        (m.contains s = true ∧ m.Satisfies t s) ∧ ∀ v, m.Step s v → Y.contains v = true := by
    rw [StateSet.contains_inter, StateSet.contains_diff, contains_satisfying_layout hm,
      contains_preStates_some hm]
    simp only [StateSet.contains_diff, contains_allStates hm]
    grind [contains_of_step hm]
  refine isGreatest_fixpoint ?_ (satisfying_le_allStates hm _) ?_
  · intro s
    simp only [hMem, contains_satisfying_layout hm, Satisfies]
    rw [onPaths_all_always]
    grind [contains_of_step hm]
  · intro Y hY s hs
    simp only [hMem] at hY
    refine (contains_satisfying_layout hm _ s).mpr ⟨(hY s hs).1.1, ?_⟩
    refine onPaths_all_always_of (Y := fun v => Y.contains v = true) ?_ ?_ hs
    · intro v hv
      exact (hY v hv).1.2
    · intro v w hv hStep
      exact (hY v hv).2 w hStep

end Greatest

-- ---------------------------------------------------------------------------
-- Complements
-- ---------------------------------------------------------------------------

section Complements

variable (t u : Tree)

/-- A set is the complement of another if each state of the model is in exactly
one of them. -/
theorem eq_diff_of_contains {X Y : StateSet} (hInside : X ≤ m.allStates)
    (h : ∀ s, m.contains s = true → (X.contains s = true ↔ ¬ Y.contains s = true)) :
    X = m.allStates.diff Y := by
  refine StateSet.eq_of_contains_iff fun s => ?_
  rw [StateSet.contains_diff]
  constructor
  · intro hs
    have hIn := hInside s hs
    exact ⟨hIn, (h s ((contains_allStates hm).mp hIn)).mp hs⟩
  · rintro ⟨hIn, hNot⟩
    exact (h s ((contains_allStates hm).mp hIn)).mpr hNot

theorem satisfying_eq_diff {t u : Tree} (h : ∀ s, m.Satisfies t s ↔ ¬ m.Satisfies u s) :
    m.satisfying t.layout = m.allStates.diff (m.satisfying u.layout) := by
  refine eq_diff_of_contains hm (satisfying_le_allStates hm _) fun s hs => ?_
  simp only [contains_satisfying_layout hm, hs, true_and]
  exact h s

theorem satisfying_not :
    m.satisfying (Tree.not t).layout = m.allStates.diff (m.satisfying t.layout) :=
  satisfying_eq_diff hm fun _ => Iff.rfl

theorem satisfying_and :
    m.satisfying (Tree.connective .and t u).layout =
      (m.satisfying t.layout).inter (m.satisfying u.layout) := by
  refine StateSet.eq_of_contains_iff fun s => ?_
  rw [StateSet.contains_inter]
  simp only [contains_satisfying_layout hm, Satisfies]
  grind

theorem satisfying_some_always :
    m.satisfying (Tree.temporal .some .always t).layout =
      m.allStates.diff (m.satisfying (Tree.temporal .all .eventually (.not t)).layout) :=
  satisfying_eq_diff hm fun s => by
    simp only [Satisfies, OnPaths, always_iff_not_eventually]
    simp

theorem satisfying_all_always :
    m.satisfying (Tree.temporal .all .always t).layout =
      m.allStates.diff (m.satisfying (Tree.temporal .some .eventually (.not t)).layout) :=
  satisfying_eq_diff hm fun s => by
    simp only [Satisfies, OnPaths, always_iff_not_eventually]
    simp

theorem satisfying_all_until :
    m.satisfying (Tree.untl .all t u).layout =
      m.allStates.diff
        ((m.satisfying (Tree.untl .some (.not u) (.connective .and (.not t) (.not u))).layout).union
          (m.satisfying (Tree.temporal .some .always (.not u)).layout)) := by
  refine eq_diff_of_contains hm (satisfying_le_allStates hm _) fun s hs => ?_
  rw [StateSet.contains_union]
  simp only [contains_satisfying_layout hm, hs, true_and, Satisfies, OnPaths]
  -- a path misses the until by leaving the allowed states before the goal, or for good
  have hMissed (path : Nat → Option StateId) :
      ¬ Until (m.Satisfies t) (m.Satisfies u) path ↔ _ := not_until_iff
  grind

end Complements

end Operators

-- ---------------------------------------------------------------------------
-- All operators
-- ---------------------------------------------------------------------------

/-- **Derived operators.** On every built model, for any two formulas: each
temporal operator is the fixpoint of its expansion law on sets of states, and
the operators that are computed by complements are these complements. -/
theorem satisfying_fixpoints {m : Model} (hm : m.IsBuilt) {f g : Formula} (hf : f.IsObtained)
    (hg : g.IsObtained) :
    let S := m.allStates
    let D := m.deadlocks
    let F := m.satisfying f
    let G := m.satisfying g
    IsLeast {Y | G.union (F.inter (m.preStates .some Y)) = Y} (m.satisfying (f.untl .some g)) ∧
    IsLeast {Y | F.union (m.preStates .all Y) = Y} (m.satisfying (f.temporal .all .eventually)) ∧
    IsLeast {Y | G.union (F.inter (m.preStates .all Y)) = Y} (m.satisfying (f.untl .all g)) ∧
    IsGreatest {Y | Y ≤ S ∧ F.inter ((m.preStates .some Y).union D) = Y}
      (m.satisfying (f.temporal .some .always)) ∧
    IsGreatest {Y | Y ≤ S ∧ F.inter (S.diff (m.preStates .some (S.diff Y))) = Y}
      (m.satisfying (f.temporal .all .always)) ∧
    m.satisfying f.not = S.diff F ∧
    m.satisfying (f.not.connect .and g.not) = (S.diff F).inter (S.diff G) ∧
    m.satisfying (f.untl .all g) =
      S.diff ((m.satisfying (g.not.untl .some (f.not.connect .and g.not))).union
        (m.satisfying (g.not.temporal .some .always))) ∧
    m.satisfying (f.temporal .some .always) =
      S.diff (m.satisfying (f.not.temporal .all .eventually)) ∧
    m.satisfying (f.temporal .all .always) =
      S.diff (m.satisfying (f.not.temporal .some .eventually)) := by
  obtain ⟨accepted, hm⟩ := hm.exists_isBuiltFrom
  obtain ⟨t, rfl⟩ := hf.exists_layout
  obtain ⟨u, rfl⟩ := hg.exists_layout
  have hNeither : m.satisfying (t.layout.not.connect .and u.layout.not) =
      (m.allStates.diff (m.satisfying t.layout)).inter
        (m.allStates.diff (m.satisfying u.layout)) := by
    rw [← satisfying_not hm t, ← satisfying_not hm u]
    exact satisfying_and hm (.not t) (.not u)
  exact ⟨isLeast_some_until hm t u, isLeast_all_eventually hm t, isLeast_all_until hm t u,
    isGreatest_some_always hm t, isGreatest_all_always hm t, satisfying_not hm t, hNeither,
    satisfying_all_until hm t u, satisfying_some_always hm t, satisfying_all_always hm t⟩

/-- In `0 → 1` beside a loop at `2`, with `p` everywhere and `q` in the dead end
`1`: the loop is not in `A(p U q)`, and the dead end is in `EG p`. -/
theorem satisfying_dead_end_and_loop :
    let calls : List Builder.Call :=
      [.state ⟨0⟩, .state ⟨1⟩, .state ⟨2⟩, .transition ⟨⟨0⟩, ⟨0⟩, ⟨1⟩⟩, .transition ⟨⟨1⟩, ⟨2⟩, ⟨2⟩⟩,
        .label ⟨0⟩ "p", .label ⟨1⟩ "p", .label ⟨2⟩ "p", .label ⟨1⟩ "q"]
    let m := (Builder.attemptAll {} calls).1.build
    let p := Formula.atom "p"
    let q := Formula.atom "q"
    m.IsBuilt ∧ p.IsObtained ∧ q.IsObtained ∧
    IsLeast {Y | (m.satisfying q).union ((m.satisfying p).inter (m.preStates .all Y)) = Y}
      (.ofNumbers [0, 1]) ∧
    IsGreatest {Y | Y ≤ m.allStates ∧
        (m.satisfying p).inter ((m.preStates .some Y).union m.deadlocks) = Y}
      (.ofNumbers [0, 1, 2]) := by
  intro calls m p q
  have hm : m.IsBuilt := ⟨calls, rfl⟩
  obtain ⟨-, -, hUntil, hAlways, -⟩ := satisfying_fixpoints hm (.atom "p") (.atom "q")
  have hSorted : (Builder.attemptAll {} calls).1.sortedStates =
      [{ id := ⟨0⟩, outgoing := [0], labels := ["p"] }, { id := ⟨1⟩, labels := ["p", "q"] },
        { id := ⟨2⟩, outgoing := [1], labels := ["p"] }] :=
    List.mergeSort_of_pairwise (by decide +kernel)
  have hFoundUntil : m.satisfying (p.untl .all q) = .ofNumbers [0, 1] := by
    simp only [m, Builder.build, hSorted]
    decide +kernel
  have hFoundAlways : m.satisfying (p.temporal .some .always) = .ofNumbers [0, 1, 2] := by
    simp only [m, Builder.build, hSorted]
    decide +kernel
  exact ⟨hm, .atom "p", .atom "q", hFoundUntil ▸ hUntil, hFoundAlways ▸ hAlways⟩

end BranchingTime.Model
