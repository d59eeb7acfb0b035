import BranchingTime.Check.Paths

/-!
# BranchingTime — paths and reachability

What a formula says about whole paths comes down to what holds step by step.
Two inductive properties of states stand for all path properties: `Reaches`,
a goal lies at the end of finitely many steps through allowed states, and
`IsForced`, however one goes on, a goal is met after finitely many steps.

## Results

* `exists_path_within` — from a state of a set that can be left only by ending,
  a path stays in the set. In particular a path starts in every state.
* `exists_until_iff` — some path fulfils an until iff `Reaches` holds.
* `forall_eventually_iff` — every path meets a goal iff `IsForced` holds.
* `forall_until_iff` — every path fulfils an until iff no path leaves the
  allowed states too early and no path avoids the goal.
-/

namespace BranchingTime.Model

variable {m : Model}

/-- Through `allowed` states, finitely many steps lead to a `goal` state. -/
inductive Reaches (m : Model) (allowed goal : StateId → Prop) : StateId → Prop where
  | here {s : StateId} : goal s → Reaches m allowed goal s
  | step {s t : StateId} :
      allowed s → m.Step s t → Reaches m allowed goal t → Reaches m allowed goal s

/-- Whatever steps are taken, a `goal` state is met, and no dead end before it. -/
inductive IsForced (m : Model) (goal : StateId → Prop) : StateId → Prop where
  | here {s : StateId} : goal s → IsForced m goal s
  | step {s t : StateId} :
      m.Step s t → (∀ u, m.Step s u → IsForced m goal u) → IsForced m goal s

-- ---------------------------------------------------------------------------
-- Paths
-- ---------------------------------------------------------------------------

/-- The path that goes on with `path` after the state `s`. -/
def follow (s : StateId) (path : Nat → Option StateId) : Nat → Option StateId
  | 0 => some s
  | i + 1 => path i

theorem isPath_follow {s t : StateId} {path : Nat → Option StateId} (hStep : m.Step s t)
    (hPath : m.IsPath path t) : m.IsPath (follow s path) s := by
  constructor
  case start => rfl
  case step =>
    rintro (_ | i) u v hu hv
    · obtain rfl : s = u := Option.some.inj hu
      obtain rfl : t = v := Option.some.inj (hPath.start.symm.trans hv)
      exact hStep
    · exact hPath.step i u v hu hv
  case stop =>
    rintro (_ | i) u hu hEnd
    · exact absurd (hPath.start.symm.trans hEnd) (Option.some_ne_none t)
    · exact hPath.stop i u hu hEnd
  case stays =>
    rintro (_ | i) hNone
    · exact absurd hNone (Option.some_ne_none s)
    · exact hPath.stays i hNone

theorem IsPath.tail {s t : StateId} {path : Nat → Option StateId} (hPath : m.IsPath path s)
    (ht : path 1 = some t) : m.IsPath (fun i => path (i + 1)) t where
  start := ht
  step i := hPath.step (i + 1)
  stop i := hPath.stop (i + 1)
  stays i := hPath.stays (i + 1)

/-- A path that has a later state takes a first step. -/
theorem IsPath.first_step {s t : StateId} {path : Nat → Option StateId} (hPath : m.IsPath path s)
    {i : Nat} (ht : path (i + 1) = some t) : ∃ u, path 1 = some u ∧ m.Step s u := by
  have hFirst : path 1 ≠ none := by
    intro hNone
    have hAfter : ∀ j, path (j + 1) = none := by
      intro j
      induction j with
      | zero => exact hNone
      | succ j ih => exact hPath.stays (j + 1) ih
    rw [hAfter i] at ht
    cases ht
  obtain ⟨u, hu⟩ := Option.ne_none_iff_exists'.mp hFirst
  exact ⟨u, hu, hPath.step 0 s u hPath.start hu⟩

section Within

open Classical in
/-- A step that stays within a set of states, if there is one. -/
noncomputable def stepWithin (m : Model) (inside : StateId → Prop) (s : StateId) : Option StateId :=
  if h : ∃ t, m.Step s t ∧ inside t then some h.choose else none

/-- The path that takes such steps as long as it can. -/
noncomputable def pathWithin (m : Model) (inside : StateId → Prop) (s : StateId) :
    Nat → Option StateId
  | 0 => some s
  | i + 1 => (pathWithin m inside s i).bind (m.stepWithin inside)

variable {inside : StateId → Prop}

theorem stepWithin_eq_some {s t : StateId} (h : m.stepWithin inside s = some t) :
    m.Step s t ∧ inside t := by
  unfold stepWithin at h
  split at h
  · rename_i hExists
    rw [← Option.some.inj h]
    exact hExists.choose_spec
  · cases h

theorem stepWithin_eq_none {s : StateId} (h : m.stepWithin inside s = none) :
    ∀ t, m.Step s t → ¬ inside t := by
  unfold stepWithin at h
  split at h
  · cases h
  · rename_i hNone
    intro t hStep ht
    exact hNone ⟨t, hStep, ht⟩

theorem always_pathWithin {s : StateId} (hs : inside s) :
    Always inside (m.pathWithin inside s) := by
  intro i t ht
  cases i with
  | zero =>
    rw [← Option.some.inj ht]
    exact hs
  | succ i =>
    obtain ⟨u, -, hStep⟩ := Option.bind_eq_some_iff.mp ht
    exact (stepWithin_eq_some hStep).2

/-- From a state of a set that can be left only by ending, a path stays in the
set. -/
theorem exists_path_within
    (hGoOn : ∀ s, inside s → (∀ t, ¬ m.Step s t) ∨ ∃ t, m.Step s t ∧ inside t) {s : StateId}
    (hs : inside s) : ∃ path, m.IsPath path s ∧ Always inside path := by
  refine ⟨m.pathWithin inside s, ?_, always_pathWithin hs⟩
  constructor
  case start => rfl
  case step =>
    intro i t u ht hu
    have hStep : m.stepWithin inside t = some u := by
      rwa [pathWithin, ht] at hu
    exact (stepWithin_eq_some hStep).1
  case stop =>
    intro i t ht hEnd
    have hStep : m.stepWithin inside t = none := by
      rwa [pathWithin, ht] at hEnd
    rcases hGoOn t (always_pathWithin hs i t ht) with hDead | ⟨u, hu, hInside⟩
    · exact hDead
    · exact absurd hInside (stepWithin_eq_none hStep u hu)
  case stays =>
    intro i hNone
    rw [pathWithin, hNone]
    rfl

end Within

theorem exists_path (m : Model) (s : StateId) : ∃ path, m.IsPath path s := by
  have hGoOn (s : StateId) (_ : True) : (∀ t, ¬ m.Step s t) ∨ ∃ t, m.Step s t ∧ True := by
    by_cases hDead : ∃ t, m.Step s t
    · obtain ⟨t, ht⟩ := hDead
      exact .inr ⟨t, ht, trivial⟩
    · exact .inl fun t ht => hDead ⟨t, ht⟩
  obtain ⟨path, hPath, -⟩ := exists_path_within hGoOn (s := s) trivial
  exact ⟨path, hPath⟩

-- ---------------------------------------------------------------------------
-- Some path: until
-- ---------------------------------------------------------------------------

section Until

variable {allowed goal : StateId → Prop} {s : StateId}

/-- The goal lies at place `i` of the path: one step fewer from the next state. -/
theorem reaches_of_path {path : Nat → Option StateId} (hPath : m.IsPath path s) {i : Nat}
    {t : StateId} (ht : path i = some t) (hGoal : goal t)
    (hBefore : ∀ j u, j < i → path j = some u → allowed u) : m.Reaches allowed goal s := by
  induction i generalizing s path with
  | zero =>
    obtain rfl : s = t := Option.some.inj (hPath.start.symm.trans ht)
    exact .here hGoal
  | succ i ih =>
    obtain ⟨u, hu, hStep⟩ := hPath.first_step ht
    have hAllowed : allowed s := hBefore 0 s (Nat.succ_pos i) hPath.start
    refine .step hAllowed hStep (ih (hPath.tail hu) ht ?_)
    intro j v hj hv
    exact hBefore (j + 1) v (Nat.succ_lt_succ hj) hv

theorem Reaches.exists_path (h : m.Reaches allowed goal s) :
    ∃ path, m.IsPath path s ∧ Until allowed goal path := by
  induction h with
  | @here s hGoal =>
    obtain ⟨path, hPath⟩ := m.exists_path s
    refine ⟨path, hPath, 0, s, hPath.start, hGoal, ?_⟩
    intro j u hj
    exact absurd hj (Nat.not_lt_zero j)
  | @step s t hAllowed hStep _ ih =>
    obtain ⟨path, hPath, i, u, hu, hGoal, hBefore⟩ := ih
    refine ⟨follow s path, isPath_follow hStep hPath, i + 1, u, hu, hGoal, ?_⟩
    rintro (_ | j) v hj hv
    · rw [← Option.some.inj hv]
      exact hAllowed
    · exact hBefore j v (Nat.lt_of_succ_lt_succ hj) hv

theorem exists_until_iff :
    (∃ path, m.IsPath path s ∧ Until allowed goal path) ↔ m.Reaches allowed goal s := by
  constructor
  · rintro ⟨path, hPath, i, t, ht, hGoal, hBefore⟩
    exact reaches_of_path hPath ht hGoal hBefore
  · exact Reaches.exists_path

end Until

-- ---------------------------------------------------------------------------
-- Every path: eventually
-- ---------------------------------------------------------------------------

section Eventually

variable {goal : StateId → Prop} {s : StateId}

theorem IsForced.eventually (h : m.IsForced goal s) {path : Nat → Option StateId}
    (hPath : m.IsPath path s) : Eventually goal path := by
  induction h generalizing path with
  | @here s hGoal => exact ⟨0, s, hPath.start, hGoal⟩
  | @step s t hStep _ ih =>
    cases hNext : path 1 with
    | none => exact absurd hStep (hPath.stop 0 s hPath.start hNext t)
    | some u =>
      have hu : m.Step s u := hPath.step 0 s u hPath.start hNext
      obtain ⟨i, v, hv, hGoal⟩ := ih u hu (hPath.tail hNext)
      exact ⟨i + 1, v, hv, hGoal⟩

/-- Where the goal is not forced, one can go on so that it still is not. -/
theorem not_isForced_step (h : ¬ m.IsForced goal s) :
    (∀ t, ¬ m.Step s t) ∨ ∃ t, m.Step s t ∧ ¬ m.IsForced goal t := by
  by_cases hSome : ∃ t, m.Step s t ∧ ¬ m.IsForced goal t
  · exact .inr hSome
  · left
    intro t ht
    apply h
    refine .step ht ?_
    intro u hu
    exact Classical.byContradiction fun hNot => hSome ⟨u, hu, hNot⟩

theorem forall_eventually_iff :
    (∀ path, m.IsPath path s → Eventually goal path) ↔ m.IsForced goal s := by
  constructor
  · intro hAll
    apply Classical.byContradiction
    intro hNot
    obtain ⟨path, hPath, hAlways⟩ :=
      exists_path_within (fun _ h => not_isForced_step h) hNot
    obtain ⟨i, t, ht, hGoal⟩ := hAll path hPath
    exact hAlways i t ht (.here hGoal)
  · intro hForced path hPath
    exact hForced.eventually hPath

end Eventually

-- ---------------------------------------------------------------------------
-- The other path properties
-- ---------------------------------------------------------------------------

theorem eventually_iff_until {goal : StateId → Prop} {path : Nat → Option StateId} :
    Eventually goal path ↔ Until (fun _ => True) goal path := by
  simp [Eventually, Until]

theorem always_iff_not_eventually {property : StateId → Prop} {path : Nat → Option StateId} :
    Always property path ↔ ¬ Eventually (fun t => ¬ property t) path := by
  simp [Always, Eventually]

/-- A goal that is met is met for a first time. -/
theorem Eventually.first {goal : StateId → Prop} {path : Nat → Option StateId}
    (h : Eventually goal path) : Until (fun t => ¬ goal t) goal path := by
  obtain ⟨i, t, ht, hGoal⟩ := h
  induction i using Nat.strongRecOn generalizing t with
  | ind i ih =>
    by_cases hEarlier : ∃ j u, j < i ∧ path j = some u ∧ goal u
    · obtain ⟨j, u, hj, hu, hMet⟩ := hEarlier
      exact ih j hj u hu hMet
    · refine ⟨i, t, ht, hGoal, ?_⟩
      intro j u hj hu hMet
      exact hEarlier ⟨j, u, hj, hu, hMet⟩

/-- A path misses an until iff it leaves the allowed states before it meets the
goal, or never meets the goal. -/
theorem not_until_iff {allowed goal : StateId → Prop} {path : Nat → Option StateId} :
    ¬ Until allowed goal path ↔
      Until (fun t => ¬ goal t) (fun t => ¬ allowed t ∧ ¬ goal t) path ∨
        Always (fun t => ¬ goal t) path := by
  constructor
  · intro hNot
    by_cases hMet : Eventually goal path
    · obtain ⟨i, t, ht, hGoal, hFirst⟩ := hMet.first
      -- some state before the goal is not allowed, or the until would hold
      by_cases hLeft : ∃ j u, j < i ∧ path j = some u ∧ ¬ allowed u
      · obtain ⟨j, u, hj, hu, hAllowed⟩ := hLeft
        refine .inl ⟨j, u, hu, ⟨hAllowed, hFirst j u hj hu⟩, ?_⟩
        intro k v hk hv
        exact hFirst k v (Nat.lt_trans hk hj) hv
      · refine absurd ⟨i, t, ht, hGoal, ?_⟩ hNot
        intro j u hj hu
        exact Classical.byContradiction fun hAllowed => hLeft ⟨j, u, hj, hu, hAllowed⟩
    · right
      intro i t ht hGoal
      exact hMet ⟨i, t, ht, hGoal⟩
  · rintro (⟨j, u, hu, ⟨hAllowed, hGoal⟩, hBefore⟩ | hNever) ⟨i, t, ht, hMet, hThrough⟩
    · rcases Nat.lt_trichotomy i j with hij | rfl | hji
      · exact hBefore i t hij ht hMet
      · obtain rfl : t = u := Option.some.inj (ht.symm.trans hu)
        exact hGoal hMet
      · exact hAllowed (hThrough j u hji hu)
    · exact hNever i t ht hMet

section Dual

variable {allowed goal property : StateId → Prop} {s : StateId}

theorem exists_eventually_iff :
    (∃ path, m.IsPath path s ∧ Eventually goal path) ↔ m.Reaches (fun _ => True) goal s := by
  simp only [eventually_iff_until, exists_until_iff]

theorem exists_always_iff :
    (∃ path, m.IsPath path s ∧ Always property path) ↔
      ¬ m.IsForced (fun t => ¬ property t) s := by
  rw [← forall_eventually_iff]
  simp only [always_iff_not_eventually]
  simp

theorem forall_always_iff :
    (∀ path, m.IsPath path s → Always property path) ↔
      ¬ m.Reaches (fun _ => True) (fun t => ¬ property t) s := by
  rw [← exists_eventually_iff]
  simp only [always_iff_not_eventually]
  simp

theorem forall_until_iff :
    (∀ path, m.IsPath path s → Until allowed goal path) ↔
      ¬ m.Reaches (fun t => ¬ goal t) (fun t => ¬ allowed t ∧ ¬ goal t) s ∧ m.IsForced goal s := by
  rw [← exists_until_iff, ← forall_eventually_iff]
  constructor
  · intro hAll
    constructor
    · rintro ⟨path, hPath, hLeft⟩
      exact not_until_iff.mpr (.inl hLeft) (hAll path hPath)
    · intro path hPath
      obtain ⟨i, t, ht, hGoal, -⟩ := hAll path hPath
      exact ⟨i, t, ht, hGoal⟩
  · rintro ⟨hNone, hMet⟩ path hPath
    apply Classical.byContradiction
    intro hNot
    rcases not_until_iff.mp hNot with hLeft | hNever
    · exact hNone ⟨path, hPath, hLeft⟩
    · obtain ⟨i, t, ht, hGoal⟩ := hMet path hPath
      exact hNever i t ht hGoal

end Dual

end BranchingTime.Model
