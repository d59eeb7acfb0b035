import BranchingTime.Proofs.Model.Finished
import BranchingTime.Proofs.Result

/-!
# BranchingTime — calls that all have to be accepted

A reader stops at the first call that is refused. So it succeeds if each call
fits those before it, and then the model is what all the calls describe. When
the states come first, the order of the other calls does not matter: the states
that they need have to be there, and no two calls may clash.

## Results

* `fitAll_iff`, `reflects_callAll` — when all calls are accepted, and what the
  builder holds then.
* `fitAll_states_append_iff` — the same by needs and clashes.
-/

namespace BranchingTime.Model

namespace Builder

-- ---------------------------------------------------------------------------
-- Needs and clashes
-- ---------------------------------------------------------------------------

/-- The states that have to be declared before a call. -/
def Call.needs : Call → List StateId
  | .state _ => []
  | .transition t => [t.source, t.target]
  | .label id _ => [id]

/-- Is one of two calls refused after the other? -/
def Call.Clashes : Call → Call → Prop
  | .state id, .state id' => id = id'
  | .transition t, .transition u => t.id = u.id ∨ (t.source, t.target) = (u.source, u.target)
  | .label id name, .label id' name' => id = id' ∧ name = name'
  | _, _ => False

/-- The label that a call adds, with its state. -/
def Call.label? : Call → Option (StateId × String)
  | .label id name => some (id, name)
  | _ => none

theorem filterMap_transition?_states (ids : List StateId) :
    (ids.map Call.state).filterMap Call.transition? = [] := by
  rw [List.filterMap_map]
  exact List.filterMap_eq_nil_iff.mpr fun _ _ => rfl

theorem filterMap_transition?_transitions (transitions : List Transition) :
    (transitions.map Call.transition).filterMap Call.transition? = transitions := by
  rw [List.filterMap_map]
  exact List.filterMap_some

theorem Call.fits_iff_needs {earlier : List Call} {c : Call} :
    c.Fits earlier ↔
      (∀ id ∈ c.needs, .state id ∈ earlier) ∧ ∀ d ∈ earlier, ¬ d.Clashes c := by
  cases c with
  | state id =>
    simp only [Call.Fits, Call.needs, List.not_mem_nil, false_implies, implies_true, true_and]
    constructor
    · intro hNew d hd hClash
      cases d <;> simp_all [Call.Clashes]
    · intro hApart hMem
      exact hApart _ hMem rfl
  | transition t =>
    simp only [Call.Fits, Call.needs, List.mem_cons, List.not_mem_nil, or_false, forall_eq_or_imp,
      forall_eq, and_assoc]
    refine and_congr_right fun _ => and_congr_right fun _ => ?_
    constructor
    · intro hNew d hd hClash
      cases d with
      | transition u => exact hClash.elim (hNew u hd).1 (hNew u hd).2
      | _ => exact hClash
    · intro hApart u hu
      exact not_or.mp (hApart _ hu)
  | label id name =>
    simp only [Call.Fits, Call.needs, List.mem_singleton, forall_eq]
    refine and_congr_right fun _ => ?_
    constructor
    · intro hNew d hd hClash
      cases d <;> simp_all [Call.Clashes]
    · intro hApart hMem
      exact hApart _ hMem ⟨rfl, rfl⟩

/-- Calls that declare no states clash if they repeat the identifier or the ends
of a transition, or a label of a state. -/
theorem pairwise_clashes_iff {calls : List Call} (hStates : ∀ id, .state id ∉ calls) :
    (calls.Pairwise fun c d => ¬ c.Clashes d) ↔
      ((calls.filterMap Call.transition?).map Transition.id).Nodup ∧
      ((calls.filterMap Call.transition?).map fun t => (t.source, t.target)).Nodup ∧
      (calls.filterMap Call.label?).Nodup := by
  simp only [List.nodup_iff_pairwise_ne, List.pairwise_map, List.pairwise_filterMap,
    ← List.pairwise_and_iff]
  refine List.Pairwise.iff_of_mem ?_
  intro c d hc hd
  cases c with
  | state id => exact absurd hc (hStates id)
  | transition t =>
    cases d with
    | state id => exact absurd hd (hStates id)
    | transition u => simp [Call.Clashes, Call.transition?, Call.label?]
    | label id name => simp [Call.Clashes, Call.transition?, Call.label?]
  | label id name =>
    cases d with
    | state id => exact absurd hd (hStates id)
    | transition u => simp [Call.Clashes, Call.transition?, Call.label?]
    | label id' name' => simp [Call.Clashes, Call.transition?, Call.label?]

-- ---------------------------------------------------------------------------
-- Calls that fit one after the other
-- ---------------------------------------------------------------------------

/-- Each of the calls fits `earlier` and the calls before it. -/
def FitAll (earlier : List Call) : List Call → Prop
  | [] => True
  | c :: rest => c.Fits earlier ∧ FitAll (earlier ++ [c]) rest

theorem fitAll_append {earlier calls others : List Call} :
    FitAll earlier (calls ++ others) ↔ FitAll earlier calls ∧ FitAll (earlier ++ calls) others := by
  induction calls generalizing earlier with
  | nil => simp [FitAll]
  | cons c rest ih => simp [FitAll, ih, and_assoc]

/-- If no call declares a state that another one needs, the order of the calls
does not matter. -/
theorem fitAll_iff_pairwise {earlier calls : List Call}
    (hApart : ∀ c ∈ calls, ∀ d ∈ calls, ∀ id ∈ d.needs, c ≠ .state id) :
    FitAll earlier calls ↔
      (∀ c ∈ calls, c.Fits earlier) ∧ calls.Pairwise fun c d => ¬ c.Clashes d := by
  induction calls generalizing earlier with
  | nil => simp [FitAll]
  | cons c rest ih =>
    have hRest : ∀ c ∈ rest, ∀ d ∈ rest, ∀ id ∈ d.needs, c ≠ .state id := fun d hd e he =>
      hApart d (List.mem_cons_of_mem c hd) e (List.mem_cons_of_mem c he)
    have hNext (d : Call) (hd : d ∈ rest) :
        d.Fits (earlier ++ [c]) ↔ d.Fits earlier ∧ ¬ c.Clashes d := by
      have hOther := hApart c List.mem_cons_self d (List.mem_cons_of_mem c hd)
      simp only [Call.fits_iff_needs, List.mem_append, List.mem_singleton]
      grind
    rw [FitAll, ih hRest, List.forall_mem_cons, List.pairwise_cons]
    grind

/-- Calls after all declarations: what they need has to be declared, and no two
calls may clash. -/
theorem fitAll_states_append_iff {ids : List StateId} {others : List Call}
    (hOthers : ∀ id, .state id ∉ others) :
    FitAll [] (ids.map .state ++ others) ↔
      ids.Nodup ∧ (∀ c ∈ others, ∀ id ∈ c.needs, id ∈ ids) ∧
        others.Pairwise fun c d => ¬ c.Clashes d := by
  have hStates : FitAll [] (ids.map .state) ↔ ids.Nodup := by
    rw [fitAll_iff_pairwise, List.pairwise_map, List.nodup_iff_pairwise_ne]
    · refine and_iff_right ?_
      intro c hc
      obtain ⟨id, -, rfl⟩ := List.mem_map.mp hc
      exact List.not_mem_nil
    · intro c hc d hd id hNeeds
      obtain ⟨id', -, rfl⟩ := List.mem_map.mp hd
      cases hNeeds
  have hFits (c : Call) (hc : c ∈ others) :
      c.Fits (ids.map .state) ↔ ∀ id ∈ c.needs, id ∈ ids := by
    have hNoClash : ∀ d ∈ ids.map Call.state, ¬ d.Clashes c := by
      intro d hd hClash
      obtain ⟨id, -, rfl⟩ := List.mem_map.mp hd
      cases c with
      | state id' => exact hOthers id' hc
      | _ => exact hClash
    rw [Call.fits_iff_needs, and_iff_left hNoClash]
    simp only [List.mem_map, Call.state.injEq, exists_eq_right]
  rw [fitAll_append, hStates, List.nil_append, fitAll_iff_pairwise]
  · refine and_congr_right fun _ => and_congr_left fun _ => ?_
    exact forall_congr' fun c => forall_congr' fun hc => hFits c hc
  · intro c hc d _ id _ hEq
    exact hOthers id (hEq ▸ hc)

-- ---------------------------------------------------------------------------
-- Carrying out calls
-- ---------------------------------------------------------------------------

section Runs

variable {b b' : Builder} {accepted calls others : List Call}

theorem callAll_nil_eq_ok_iff : b.callAll [] = .ok b' ↔ b = b' :=
  Except.ok.injEq b b' ▸ Iff.rfl

theorem callAll_cons_eq_ok_iff {c : Call} :
    b.callAll (c :: calls) = .ok b' ↔
      ∃ next, b.call c = .ok next ∧ next.callAll calls = .ok b' := by
  rw [callAll, List.foldlM_cons, bind_eq_ok_iff]
  rfl

theorem callAll_singleton_eq_ok_iff {c : Call} : b.callAll [c] = .ok b' ↔ b.call c = .ok b' := by
  simp only [callAll_cons_eq_ok_iff, callAll_nil_eq_ok_iff, exists_eq_right]

theorem callAll_append_eq_ok_iff :
    b.callAll (calls ++ others) = .ok b' ↔
      ∃ next, b.callAll calls = .ok next ∧ next.callAll others = .ok b' := by
  rw [callAll, List.foldlM_append, bind_eq_ok_iff]
  rfl

/-- After calls that are all accepted the builder holds what they have added. -/
theorem reflects_callAll (hb : b.Reflects accepted) (h : b.callAll calls = .ok b') :
    b'.Reflects (accepted ++ calls) := by
  induction calls generalizing b accepted with
  | nil =>
    cases h
    rwa [List.append_nil]
  | cons c rest ih =>
    obtain ⟨next, hCall, hRest⟩ := callAll_cons_eq_ok_iff.mp h
    have hAll := ih (reflects_call hb hCall) hRest
    rwa [List.append_assoc, List.singleton_append] at hAll

/-- All calls are accepted if each fits those before it. -/
theorem fitAll_iff (hb : b.Reflects accepted) :
    FitAll accepted calls ↔ ∃ b', b.callAll calls = .ok b' := by
  induction calls generalizing b accepted with
  | nil => exact iff_of_true trivial ⟨b, rfl⟩
  | cons c rest ih =>
    simp only [callAll_cons_eq_ok_iff]
    rw [FitAll, fits_iff hb]
    constructor
    · rintro ⟨⟨next, hCall⟩, hRest⟩
      obtain ⟨b', hAll⟩ := (ih (reflects_call hb hCall)).mp hRest
      exact ⟨b', next, hCall, hAll⟩
    · rintro ⟨b', next, hCall, hAll⟩
      exact ⟨⟨next, hCall⟩, (ih (reflects_call hb hCall)).mpr ⟨b', hAll⟩⟩

/-- Passing over refused calls changes nothing if there are none. -/
theorem attemptAll_of_callAll (h : b.callAll calls = .ok b') : (b.attemptAll calls).1 = b' := by
  induction calls generalizing b with
  | nil => exact Except.ok.inj h
  | cons c rest ih =>
    obtain ⟨next, hCall, hRest⟩ := callAll_cons_eq_ok_iff.mp h
    have hAttempt : b.attempt c = (next, none) := by
      rw [attempt_eq, hCall]
    unfold attemptAll
    rw [hAttempt]
    exact ih hRest

end Runs

end Builder

section Built

variable {b : Builder} {calls : List Builder.Call} (h : Builder.callAll {} calls = .ok b)
include h

theorem isBuilt_of_callAll : b.build.IsBuilt :=
  ⟨calls, by rw [Builder.attemptAll_of_callAll h]⟩

theorem isBuiltFrom_of_callAll : b.build.IsBuiltFrom calls :=
  Builder.isBuiltFrom_build (Builder.reflects_callAll Builder.reflects_empty h)

end Built

end BranchingTime.Model
