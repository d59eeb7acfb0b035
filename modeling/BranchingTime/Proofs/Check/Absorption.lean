import BranchingTime.Proofs.Check.Derived

/-!
# BranchingTime — operators that absorb themselves

Asking twice for what lies ahead on some path, or on every path, is asking once:
until, eventually and always absorb a second operator of the same kind. The laws
hold in dead ends too, where a path has no next state.

In one direction they follow from the expansion laws. In the other the operator is
least or greatest: what is reached by way of a state that reaches the goal reaches
the goal, and what stays along a path stays along each rest of the path.

## Results

* `onPaths_until_until`, `onPaths_eventually_eventually`, `onPaths_always_always` — the
  laws on paths.
* `satisfying_absorbs` — the laws for what the checker finds.
-/

namespace BranchingTime.Model

section Paths

variable {m : Model} {P Q : StateId → Prop} {s : StateId}

theorem onPaths_until_until (q : Quantifier) :
    m.OnPaths q s (Until P fun t => m.OnPaths q t (Until P Q)) ↔ m.OnPaths q s (Until P Q) := by
  cases q with
  | some =>
    constructor
    · refine of_onPaths_some_until (fun t => id) fun t u hAllowed hStep hNext => ?_
      exact onPaths_some_until.mpr (.inr ⟨hAllowed, u, hStep, hNext⟩)
    · intro h
      exact onPaths_some_until.mpr (.inl h)
  | all =>
    constructor
    · refine of_onPaths_all_until (fun t => id) fun t hAllowed hStep hNext => ?_
      exact onPaths_all_until.mpr (.inr ⟨hAllowed, hStep, hNext⟩)
    · intro h
      exact onPaths_all_until.mpr (.inl h)

theorem onPaths_eventually_eventually (q : Quantifier) :
    m.OnPaths q s (Eventually fun t => m.OnPaths q t (Eventually P)) ↔
      m.OnPaths q s (Eventually P) := by
  simp only [eventually_eq_until]
  exact onPaths_until_until q

theorem onPaths_always_always (q : Quantifier) :
    m.OnPaths q s (Always fun t => m.OnPaths q t (Always P)) ↔ m.OnPaths q s (Always P) := by
  cases q with
  | some =>
    constructor
    · intro h
      exact (onPaths_some_always.mp h).1
    · exact onPaths_some_always_of (fun t => id) fun t ht => (onPaths_some_always.mp ht).2
  | all =>
    constructor
    · intro h
      exact (onPaths_all_always.mp h).1
    · exact onPaths_all_always_of (fun t => id) fun t u ht => (onPaths_all_always.mp ht).2 u

end Paths

/-- **Absorption.** On every built model, dead ends or not, and for any two
formulas: `EF EF f` finds the states of `EF f`, `EG EG f` those of `EG f` and
`E(f U E(f U g))` those of `E(f U g)`, and the same with every path in the place of
some path. -/
theorem satisfying_absorbs {m : Model} (hm : m.IsBuilt) {f g : Formula} (hf : f.IsObtained)
    (hg : g.IsObtained) (q : Quantifier) :
    m.satisfying ((f.temporal q .eventually).temporal q .eventually) =
      m.satisfying (f.temporal q .eventually) ∧
    m.satisfying ((f.temporal q .always).temporal q .always) =
      m.satisfying (f.temporal q .always) ∧
    m.satisfying (f.untl q (f.untl q g)) = m.satisfying (f.untl q g) := by
  obtain ⟨accepted, hm⟩ := hm.exists_isBuiltFrom
  obtain ⟨t, rfl⟩ := hf.exists_layout
  obtain ⟨u, rfl⟩ := hg.exists_layout
  have hEventually : m.satisfying (Tree.temporal q .eventually (.temporal q .eventually t)).layout =
      m.satisfying (Tree.temporal q .eventually t).layout :=
    satisfying_congr hm fun _ => onPaths_eventually_eventually q
  have hAlways : m.satisfying (Tree.temporal q .always (.temporal q .always t)).layout =
      m.satisfying (Tree.temporal q .always t).layout :=
    satisfying_congr hm fun _ => onPaths_always_always q
  have hUntil : m.satisfying (Tree.untl q t (.untl q t u)).layout =
      m.satisfying (Tree.untl q t u).layout :=
    satisfying_congr hm fun _ => onPaths_until_until q
  exact ⟨hEventually, hAlways, hUntil⟩

/-- In `0 → 1 → 2`, where `2` is a dead end, with `p` in `0` and `1`, and `q` in
`2` only, beside a loop at `3` with `p`: `A(p U q)` holds in all states but the
loop, asked once or twice, and so does `AF q`. -/
theorem satisfying_absorbs_dead_end_and_loop :
    let calls : List Builder.Call :=
      [.state ⟨0⟩, .state ⟨1⟩, .state ⟨2⟩, .state ⟨3⟩, .transition ⟨⟨0⟩, ⟨0⟩, ⟨1⟩⟩,
        .transition ⟨⟨1⟩, ⟨1⟩, ⟨2⟩⟩, .transition ⟨⟨2⟩, ⟨3⟩, ⟨3⟩⟩, .label ⟨0⟩ "p", .label ⟨1⟩ "p",
        .label ⟨2⟩ "q", .label ⟨3⟩ "p"]
    let m := (Builder.attemptAll {} calls).1.build
    let p := Formula.atom "p"
    let q := Formula.atom "q"
    m.IsBuilt ∧ p.IsObtained ∧ q.IsObtained ∧
    m.satisfying (p.untl .all (p.untl .all q)) = .ofNumbers [0, 1, 2] ∧
    m.satisfying ((q.temporal .all .eventually).temporal .all .eventually) =
      .ofNumbers [0, 1, 2] := by
  intro calls m p q
  have hm : m.IsBuilt := ⟨calls, rfl⟩
  have hSorted : (Builder.attemptAll {} calls).1.sortedStates =
      [{ id := ⟨0⟩, outgoing := [0], labels := ["p"] },
        { id := ⟨1⟩, outgoing := [1], labels := ["p"] }, { id := ⟨2⟩, labels := ["q"] },
        { id := ⟨3⟩, outgoing := [2], labels := ["p"] }] :=
    List.mergeSort_of_pairwise (by decide +kernel)
  have hUntil : m.satisfying (p.untl .all q) = .ofNumbers [0, 1, 2] := by
    simp only [m, Builder.build, hSorted]
    decide +kernel
  have hEventually : m.satisfying (q.temporal .all .eventually) = .ofNumbers [0, 1, 2] := by
    simp only [m, Builder.build, hSorted]
    decide +kernel
  obtain ⟨-, -, hTwice⟩ := satisfying_absorbs hm (.atom "p") (.atom "q") .all
  obtain ⟨hAgain, -, -⟩ := satisfying_absorbs hm (.atom "q") (.atom "p") .all
  exact ⟨hm, .atom "p", .atom "q", hTwice.trans hUntil, hAgain.trans hEventually⟩

end BranchingTime.Model
