import Mathlib.Data.List.Forall2

/-!
# BranchingTime — computations that may fail

A computation in two parts succeeds if both do, and is determined by what the
second part does after a success of the first. One that goes through a list fails
at a member of the list, and what follows that member does not matter.
-/

namespace BranchingTime

/-- A computation succeeds if both its parts do. -/
theorem bind_eq_ok_iff {ε α β : Type} {x : Except ε α} {f : α → Except ε β} {r : β} :
    x >>= f = .ok r ↔ ∃ a, x = .ok a ∧ f a = .ok r := by
  cases x with
  | error e => simp [bind, Except.bind]
  | ok a => simp [bind, Except.bind]

/-- Two second parts give the same if they agree after a success. -/
theorem bind_congr_of_ok {ε α β : Type} {x : Except ε α} {f g : α → Except ε β}
    (h : ∀ a, x = .ok a → f a = g a) : x >>= f = x >>= g := by
  cases x with
  | error e => rfl
  | ok a => exact h a rfl

/-- An error that neither part gives is not given. -/
theorem bind_ne_error {ε α β : Type} {x : Except ε α} {f : α → Except ε β} {e : ε}
    (hx : x ≠ .error e) (hf : ∀ a, f a ≠ .error e) : x >>= f ≠ .error e := by
  cases x with
  | error e' =>
    intro hError
    cases hError
    exact hx rfl
  | ok a => exact hf a

theorem map_eq_error_iff {ε α β : Type} {x : Except ε α} {f : α → β} {e : ε} :
    x.map f = .error e ↔ x = .error e := by
  cases x with
  | error e' => simp [Except.map]
  | ok a => simp [Except.map]

/-- Going through a list fails at one of its members, whatever follows it. -/
theorem foldlM_eq_error_iff {ε α σ : Type} {f : σ → α → Except ε σ} {xs : List α} {s : σ} {e : ε} :
    xs.foldlM f s = .error e ↔
      ∃ front x back s', xs = front ++ x :: back ∧ front.foldlM f s = .ok s' ∧
        f s' x = .error e := by
  induction xs generalizing s with
  | nil => simp [pure, Except.pure]
  | cons x rest ih =>
    rw [List.foldlM_cons]
    constructor
    · intro h
      cases hStep : f s x with
      | error e' =>
        rw [hStep] at h
        cases h
        exact ⟨[], x, rest, s, rfl, rfl, hStep⟩
      | ok next =>
        rw [hStep] at h
        obtain ⟨front, y, back, s', rfl, hFront, hFault⟩ := ih.mp h
        refine ⟨x :: front, y, back, s', rfl, ?_, hFault⟩
        rw [List.foldlM_cons, hStep]
        exact hFront
    · rintro ⟨front, y, back, s', hSplit, hFront, hFault⟩
      cases front with
      | nil =>
        cases hFront
        obtain ⟨rfl, rfl⟩ := List.cons.inj hSplit
        rw [hFault]
        rfl
      | cons z front =>
        obtain ⟨rfl, rfl⟩ := List.cons.inj hSplit
        rw [List.foldlM_cons, bind_eq_ok_iff] at hFront
        obtain ⟨next, hStep, hFront⟩ := hFront
        rw [hStep]
        exact ih.mpr ⟨front, y, back, s', rfl, hFront, hFault⟩

/-- An error that no member gives is not given. -/
theorem foldlM_ne_error {ε α σ : Type} {f : σ → α → Except ε σ} {e : ε}
    (hf : ∀ s x, f s x ≠ .error e) (xs : List α) (s : σ) : xs.foldlM f s ≠ .error e := by
  intro h
  obtain ⟨_, x, _, s', -, -, hFault⟩ := foldlM_eq_error_iff.mp h
  exact hf s' x hFault

/-- Going through a list succeeds with the results for its members, one by one. -/
theorem mapM_eq_ok_iff {ε α β : Type} {f : α → Except ε β} {xs : List α} {ys : List β} :
    xs.mapM f = .ok ys ↔ List.Forall₂ (fun x y => f x = .ok y) xs ys := by
  induction xs generalizing ys with
  | nil =>
    rw [List.mapM_nil, List.forall₂_nil_left_iff]
    constructor
    · intro h
      exact (Except.ok.inj h).symm
    · rintro rfl
      rfl
  | cons x rest ih =>
    rw [List.mapM_cons, bind_eq_ok_iff, List.forall₂_cons_left_iff]
    constructor
    · rintro ⟨y, hy, hRest⟩
      obtain ⟨others, hOthers, hAll⟩ := bind_eq_ok_iff.mp hRest
      exact ⟨y, others, hy, ih.mp hOthers, (Except.ok.inj hAll).symm⟩
    · rintro ⟨y, others, hy, hOthers, rfl⟩
      exact ⟨y, hy, bind_eq_ok_iff.mpr ⟨others, ih.mpr hOthers, rfl⟩⟩

theorem exists_mapM_eq_ok_iff {ε α β : Type} {f : α → Except ε β} {xs : List α} :
    (∃ ys, xs.mapM f = .ok ys) ↔ ∀ x ∈ xs, ∃ y, f x = .ok y := by
  simp only [mapM_eq_ok_iff]
  induction xs with
  | nil => simp
  | cons x rest ih =>
    rw [List.forall_mem_cons, ← ih]
    constructor
    · rintro ⟨_, hAll⟩
      obtain ⟨y, others, hy, hOthers, -⟩ := List.forall₂_cons_left_iff.mp hAll
      exact ⟨⟨y, hy⟩, others, hOthers⟩
    · rintro ⟨⟨y, hy⟩, others, hOthers⟩
      exact ⟨y :: others, .cons hy hOthers⟩

theorem mapError_eq_ok_iff {ε ε' α : Type} {x : Except ε α} {f : ε → ε'} {a : α} :
    x.mapError f = .ok a ↔ x = .ok a := by
  cases x with
  | error e => simp [Except.mapError]
  | ok b => simp [Except.mapError]

end BranchingTime
