import BranchingTime.Proofs.Check.Reachability

/-!
# BranchingTime — expansion laws

What an operator says about the paths from a state comes down to the state
itself and what the operator says about the next states. A path is a first
state that it ends in, or a first state and a path from a successor; so each
law follows from what the operator says of a first state and of a rest.

The laws only say that an operator is a fixpoint. Until and eventually are the
least ones and always the greatest: a property that one step cannot leave holds
of some path, or of every path, as long as it goes.

## Results

* `onPaths_some_iff`, `onPaths_all_iff` — paths by their first step.
* `onPaths_some_until`, `onPaths_all_until`, `onPaths_all_eventually`,
  `onPaths_some_always`, `onPaths_all_always` — the laws.
* `of_onPaths_some_until`, `of_onPaths_all_until`, `onPaths_some_always_of`,
  `onPaths_all_always_of` — least and greatest.
-/

namespace BranchingTime.Model

variable {m : Model} {s : StateId}

-- ---------------------------------------------------------------------------
-- First states
-- ---------------------------------------------------------------------------

/-- No step leads on from `s`. -/
def IsDeadEnd (m : Model) (s : StateId) : Prop :=
  ∀ t, ¬ m.Step s t

/-- Nothing: what comes after the end of a path. -/
def ended : Nat → Option StateId :=
  fun _ => none

theorem isPath_ended (hDead : m.IsDeadEnd s) : m.IsPath (follow s ended) s := by
  constructor
  case start => rfl
  case step =>
    intro i t u _ hu
    cases hu
  case stop =>
    rintro (_ | i) t ht _
    · rw [← Option.some.inj ht]
      exact hDead
    · cases ht
  case stays => exact fun _ _ => rfl

/-- A path ends in its first state, or goes on from a successor of it. -/
theorem IsPath.cases_first {path : Nat → Option StateId} (hPath : m.IsPath path s) :
    (m.IsDeadEnd s ∧ path = follow s ended) ∨
      ∃ t rest, m.Step s t ∧ m.IsPath rest t ∧ path = follow s rest := by
  have hFollow : path = follow s fun i => path (i + 1) := by
    funext i
    cases i with
    | zero => exact hPath.start
    | succ i => rfl
  cases hNext : path 1 with
  | some t =>
    exact .inr ⟨t, _, hPath.step 0 s t hPath.start hNext, hPath.tail hNext, hFollow⟩
  | none =>
    have hEnded : (fun i => path (i + 1)) = ended := by
      funext i
      induction i with
      | zero => exact hNext
      | succ i ih => exact hPath.stays (i + 1) ih
    exact .inl ⟨hPath.stop 0 s hPath.start hNext, hFollow.trans (by rw [hEnded])⟩

section OnPaths

variable {property : (Nat → Option StateId) → Prop}

theorem onPaths_some_iff :
    m.OnPaths .some s property ↔
      (m.IsDeadEnd s ∧ property (follow s ended)) ∨
        ∃ t, m.Step s t ∧ m.OnPaths .some t fun rest => property (follow s rest) := by
  constructor
  · rintro ⟨path, hPath, hProperty⟩
    rcases hPath.cases_first with ⟨hDead, rfl⟩ | ⟨t, rest, hStep, hRest, rfl⟩
    · exact .inl ⟨hDead, hProperty⟩
    · exact .inr ⟨t, hStep, rest, hRest, hProperty⟩
  · rintro (⟨hDead, hProperty⟩ | ⟨t, hStep, rest, hRest, hProperty⟩)
    · exact ⟨_, isPath_ended hDead, hProperty⟩
    · exact ⟨_, isPath_follow hStep hRest, hProperty⟩

theorem onPaths_all_iff :
    m.OnPaths .all s property ↔
      (m.IsDeadEnd s → property (follow s ended)) ∧
        ∀ t, m.Step s t → m.OnPaths .all t fun rest => property (follow s rest) := by
  constructor
  · intro hAll
    exact ⟨fun hDead => hAll _ (isPath_ended hDead),
      fun t hStep rest hRest => hAll _ (isPath_follow hStep hRest)⟩
  · rintro ⟨hEnded, hSteps⟩ path hPath
    rcases hPath.cases_first with ⟨hDead, rfl⟩ | ⟨t, rest, hStep, hRest, rfl⟩
    · exact hEnded hDead
    · exact hSteps t hStep rest hRest

/-- What does not depend on the path can be said before it: a path starts in
every state. -/
theorem onPaths_and {q : Quantifier} {fact : Prop} :
    (m.OnPaths q s fun path => fact ∧ property path) ↔ fact ∧ m.OnPaths q s property := by
  obtain ⟨path, hPath⟩ := m.exists_path s
  cases q with
  | some =>
    constructor
    · rintro ⟨other, hOther, hFact, hProperty⟩
      exact ⟨hFact, other, hOther, hProperty⟩
    · rintro ⟨hFact, other, hOther, hProperty⟩
      exact ⟨other, hOther, hFact, hProperty⟩
  | all =>
    constructor
    · intro hAll
      exact ⟨(hAll path hPath).1, fun other hOther => (hAll other hOther).2⟩
    · rintro ⟨hFact, hAll⟩ other hOther
      exact ⟨hFact, hAll other hOther⟩

theorem onPaths_or {q : Quantifier} {fact : Prop} :
    (m.OnPaths q s fun path => fact ∨ property path) ↔ fact ∨ m.OnPaths q s property := by
  obtain ⟨path, hPath⟩ := m.exists_path s
  by_cases hFact : fact
  · have hHolds : m.OnPaths q s fun path => fact ∨ property path := by
      cases q with
      | some => exact ⟨path, hPath, .inl hFact⟩
      | all => exact fun other _ => .inl hFact
    exact iff_of_true hHolds (.inl hFact)
  · simp only [hFact, false_or]

end OnPaths

-- ---------------------------------------------------------------------------
-- What is said of a first state and a rest
-- ---------------------------------------------------------------------------

section Follow

variable {P Q : StateId → Prop} {rest : Nat → Option StateId}

theorem until_follow : Until P Q (follow s rest) ↔ Q s ∨ P s ∧ Until P Q rest := by
  constructor
  · rintro ⟨_ | i, t, ht, hGoal, hBefore⟩
    · rw [← Option.some.inj ht] at hGoal
      exact .inl hGoal
    · refine .inr ⟨hBefore 0 s (Nat.succ_pos i) rfl, i, t, ht, hGoal, ?_⟩
      intro j u hj hu
      exact hBefore (j + 1) u (Nat.succ_lt_succ hj) hu
  · rintro (hGoal | ⟨hAllowed, i, t, ht, hGoal, hBefore⟩)
    · exact ⟨0, s, rfl, hGoal, fun j _ hj => absurd hj (Nat.not_lt_zero j)⟩
    · refine ⟨i + 1, t, ht, hGoal, ?_⟩
      rintro (_ | j) u hj hu
      · rw [← Option.some.inj hu]
        exact hAllowed
      · exact hBefore j u (Nat.lt_of_succ_lt_succ hj) hu

theorem always_follow : Always P (follow s rest) ↔ P s ∧ Always P rest := by
  constructor
  · intro hAlways
    exact ⟨hAlways 0 s rfl, fun i => hAlways (i + 1)⟩
  · rintro ⟨hHere, hRest⟩ (_ | i) t ht
    · rw [← Option.some.inj ht]
      exact hHere
    · exact hRest i t ht

theorem not_until_ended : ¬ Until P Q ended := by
  rintro ⟨i, t, ht, -⟩
  cases ht

theorem always_ended : Always P ended := by
  intro i t ht
  cases ht

end Follow

-- ---------------------------------------------------------------------------
-- The laws
-- ---------------------------------------------------------------------------

theorem isDeadEnd_or_step (m : Model) (s : StateId) : m.IsDeadEnd s ∨ ∃ t, m.Step s t := by
  by_cases hStep : ∃ t, m.Step s t
  · exact .inr hStep
  · exact .inl fun t ht => hStep ⟨t, ht⟩

section Laws

variable {P Q : StateId → Prop}

theorem onPaths_some_until :
    m.OnPaths .some s (Until P Q) ↔
      Q s ∨ P s ∧ ∃ t, m.Step s t ∧ m.OnPaths .some t (Until P Q) := by
  have hOn := m.isDeadEnd_or_step s
  rw [onPaths_some_iff]
  simp only [until_follow, onPaths_or, onPaths_and, not_until_ended]
  grind

theorem onPaths_all_until :
    m.OnPaths .all s (Until P Q) ↔
      Q s ∨ P s ∧ (∃ t, m.Step s t) ∧ ∀ t, m.Step s t → m.OnPaths .all t (Until P Q) := by
  have hOn := m.isDeadEnd_or_step s
  rw [onPaths_all_iff]
  simp only [until_follow, onPaths_or, onPaths_and, not_until_ended]
  grind [IsDeadEnd]

theorem onPaths_some_always :
    m.OnPaths .some s (Always P) ↔
      P s ∧ ((∃ t, m.Step s t ∧ m.OnPaths .some t (Always P)) ∨ m.IsDeadEnd s) := by
  rw [onPaths_some_iff]
  simp only [always_follow, onPaths_and, always_ended]
  grind

theorem onPaths_all_always :
    m.OnPaths .all s (Always P) ↔
      P s ∧ ∀ t, m.Step s t → m.OnPaths .all t (Always P) := by
  have hOn := m.isDeadEnd_or_step s
  rw [onPaths_all_iff]
  simp only [always_follow, onPaths_and, always_ended]
  grind

theorem eventually_eq_until : Eventually P = Until (fun _ => True) P := by
  funext path
  exact propext eventually_iff_until

theorem onPaths_all_eventually :
    m.OnPaths .all s (Eventually P) ↔
      P s ∨ (∃ t, m.Step s t) ∧ ∀ t, m.Step s t → m.OnPaths .all t (Eventually P) := by
  rw [eventually_eq_until, onPaths_all_until, true_and]

end Laws

-- ---------------------------------------------------------------------------
-- Least and greatest
-- ---------------------------------------------------------------------------

section Extremes

variable {P Q Y : StateId → Prop}

/-- A property that holds of the goal, and before a state with it, holds wherever
some path fulfils the until. -/
theorem of_onPaths_some_until (hGoal : ∀ t, Q t → Y t)
    (hBack : ∀ t u, P t → m.Step t u → Y u → Y t) (h : m.OnPaths .some s (Until P Q)) : Y s := by
  have hReaches : m.Reaches P Q s := exists_until_iff.mp h
  induction hReaches with
  | here hHere => exact hGoal _ hHere
  | step hAllowed hStep hRest ih => exact hBack _ _ hAllowed hStep (ih hRest.exists_path)

/-- The same for every path: else a path could avoid the property, and with it
the goal. -/
theorem of_onPaths_all_until (hGoal : ∀ t, Q t → Y t)
    (hBack : ∀ t, P t → (∃ u, m.Step t u) → (∀ u, m.Step t u → Y u) → Y t)
    (h : m.OnPaths .all s (Until P Q)) : Y s := by
  let inside (t : StateId) : Prop := m.OnPaths .all t (Until P Q) ∧ ¬ Y t
  have hGoOn (t : StateId) (ht : inside t) :
      (∀ u, ¬ m.Step t u) ∨ ∃ u, m.Step t u ∧ inside u := by
    rcases onPaths_all_until.mp ht.1 with hHere | ⟨hAllowed, hStep, hAll⟩
    · exact absurd (hGoal t hHere) ht.2
    · right
      apply Classical.byContradiction
      intro hNone
      refine ht.2 (hBack t hAllowed hStep fun u hu => ?_)
      apply Classical.byContradiction
      intro hNot
      exact hNone ⟨u, hu, hAll u hu, hNot⟩
  apply Classical.byContradiction
  intro hNot
  obtain ⟨path, hPath, hInside⟩ := exists_path_within hGoOn ⟨h, hNot⟩
  obtain ⟨i, t, ht, hHere, -⟩ := h path hPath
  exact (hInside i t ht).2 (hGoal t hHere)

theorem of_onPaths_all_eventually (hGoal : ∀ t, P t → Y t)
    (hBack : ∀ t, (∃ u, m.Step t u) → (∀ u, m.Step t u → Y u) → Y t)
    (h : m.OnPaths .all s (Eventually P)) : Y s := by
  rw [eventually_eq_until] at h
  exact of_onPaths_all_until hGoal (fun t _ => hBack t) h

/-- A property that can be left only by ending holds along some path. -/
theorem onPaths_some_always_of (hHere : ∀ t, Y t → P t)
    (hOn : ∀ t, Y t → (∃ u, m.Step t u ∧ Y u) ∨ m.IsDeadEnd t) (hs : Y s) :
    m.OnPaths .some s (Always P) := by
  obtain ⟨path, hPath, hAlways⟩ := exists_path_within (fun t ht => (hOn t ht).symm) hs
  exact ⟨path, hPath, fun i t ht => hHere t (hAlways i t ht)⟩

/-- A property that no step leaves holds along every path. -/
theorem onPaths_all_always_of (hHere : ∀ t, Y t → P t) (hOn : ∀ t u, Y t → m.Step t u → Y u)
    (hs : Y s) : m.OnPaths .all s (Always P) := by
  intro path hPath i t ht
  apply hHere
  induction i generalizing t with
  | zero =>
    rw [← Option.some.inj (hPath.start.symm.trans ht)]
    exact hs
  | succ i ih =>
    cases hBefore : path i with
    | none => exact absurd ((hPath.stays i hBefore).symm.trans ht) (Option.some_ne_none t).symm
    | some u => exact hOn u t (ih u hBefore) (hPath.step i u t hBefore ht)

end Extremes

end BranchingTime.Model
