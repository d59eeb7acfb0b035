import BranchingTime.Formula.Tree
import BranchingTime.Model

/-!
# BranchingTime — what formulas say about paths

A path follows transitions as long as it can: it goes on for ever, or it ends
in a state that no transition leaves. A temporal operator says something about
some path, or about every path, that starts in a state. This is the meaning
that the checker computes.
-/

namespace BranchingTime

namespace Model

/-- A transition leads from `s` to `t`. -/
def Step (m : Model) (s t : StateId) : Prop :=
  ∃ transition ∈ m.transitions, transition.source = s ∧ transition.target = t

/-- The states of a maximal path from `s`, by their numbers on the path. After
the end of a path there is no state. -/
structure IsPath (m : Model) (path : Nat → Option StateId) (s : StateId) : Prop where
  start : path 0 = some s
  step : ∀ i t u, path i = some t → path (i + 1) = some u → m.Step t u
  stop : ∀ i t, path i = some t → path (i + 1) = none → ∀ u, ¬ m.Step t u
  stays : ∀ i, path i = none → path (i + 1) = none

/-- Some path from `s`, or every path, has a property. -/
def OnPaths (m : Model) (q : Quantifier) (s : StateId) (property : (Nat → Option StateId) → Prop) :
    Prop :=
  match q with
  | .some => ∃ path, m.IsPath path s ∧ property path
  | .all => ∀ path, m.IsPath path s → property path

/-- Some step from `s`, or every step, leads to a state with a property. -/
def OnSteps (m : Model) (q : Quantifier) (s : StateId) (property : StateId → Prop) : Prop :=
  match q with
  | .some => ∃ t, m.Step s t ∧ property t
  | .all => ∀ t, m.Step s t → property t

/-- Some state of a path has a property. -/
def Eventually (property : StateId → Prop) (path : Nat → Option StateId) : Prop :=
  ∃ i t, path i = some t ∧ property t

/-- All states of a path have a property. -/
def Always (property : StateId → Prop) (path : Nat → Option StateId) : Prop :=
  ∀ i t, path i = some t → property t

/-- Some state of a path has the property `goal`, and all before it have the
property `allowed`. -/
def Until (allowed goal : StateId → Prop) (path : Nat → Option StateId) : Prop :=
  ∃ i t, path i = some t ∧ goal t ∧ ∀ j u, j < i → path j = some u → allowed u

/-- The state `s` satisfies the formula with this tree. -/
def Satisfies (m : Model) : Tree → StateId → Prop
  | .atom name, s => ∃ state ∈ m.states, state.id = s ∧ name ∈ state.labels
  | .not t, s => ¬ m.Satisfies t s
  | .connective .and t u, s => m.Satisfies t s ∧ m.Satisfies u s
  | .connective .or t u, s => m.Satisfies t s ∨ m.Satisfies u s
  | .connective .implies t u, s => m.Satisfies t s → m.Satisfies u s
  | .temporal q .next t, s => m.OnSteps q s (m.Satisfies t)
  | .temporal q .eventually t, s => m.OnPaths q s (Eventually (m.Satisfies t))
  | .temporal q .always t, s => m.OnPaths q s (Always (m.Satisfies t))
  | .untl q t u, s => m.OnPaths q s (Until (m.Satisfies t) (m.Satisfies u))

end Model

end BranchingTime
