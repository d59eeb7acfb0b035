import BranchingTime.Proofs.Model.Calls

/-!
# BranchingTime — refused calls

Why a call is refused can be told from the calls that were accepted before it.
Of several reasons the first one is reported: a state that is not declared, the
source before the target, then a pair of source and target that is taken, then
an identifier that is taken.

A refused call leaves no trace, so it may as well be left out. A model that is
built from lists of parts is refused as a whole if any part is; whether one is
depends on what is in the lists only.

## Results

* `call_eq_error_iff` — the error of a call, from the calls accepted before.
* `attemptAll_acceptedCalls` — leaving out refused calls.
* `ofParts_eq_ok_iff` — when lists of parts make a model.
* `refusals_are_exact` — all of it for every builder that calls lead to.
-/

namespace BranchingTime.Model

namespace Builder

-- ---------------------------------------------------------------------------
-- Reasons
-- ---------------------------------------------------------------------------

/-- Why a call is refused after the calls `accepted`. -/
inductive Refuses (accepted : List Call) : Call → ModelError → Prop where
  | duplicateState {id : StateId} :
      .state id ∈ accepted → Refuses accepted (.state id) (.duplicateState id)
  | unknownSource {t : Transition} :
      .state t.source ∉ accepted → Refuses accepted (.transition t) (.unknownState t.id t.source)
  | unknownTarget {t : Transition} :
      .state t.source ∈ accepted → .state t.target ∉ accepted →
        Refuses accepted (.transition t) (.unknownState t.id t.target)
  /-- The transition `u` has the same source and target. -/
  | duplicateTransition {t u : Transition} :
      .state t.source ∈ accepted → .state t.target ∈ accepted →
        .transition u ∈ accepted → u.source = t.source → u.target = t.target →
          Refuses accepted (.transition t) (.duplicateTransition u.id t.id t.source t.target)
  /-- The transition `u` has the same identifier, and none has the same source and
  target. -/
  | duplicateTransitionId {t u : Transition} :
      .state t.source ∈ accepted → .state t.target ∈ accepted →
        (∀ v, .transition v ∈ accepted → (v.source, v.target) ≠ (t.source, t.target)) →
          .transition u ∈ accepted → u.id = t.id →
            Refuses accepted (.transition t) (.duplicateTransitionId t.id)
  | unknownLabelState {id : StateId} {label : String} :
      .state id ∉ accepted → Refuses accepted (.label id label) (.unknownLabelState id label)
  | duplicateLabel {id : StateId} {label : String} :
      .state id ∈ accepted → .label id label ∈ accepted →
        Refuses accepted (.label id label) (.duplicateLabel id label)

section Reasons

variable {b : Builder} {accepted : List Call} (hb : b.Reflects accepted)
include hb

theorem Reflects.lookup_eq_none {id : StateId} (h : .state id ∉ accepted) :
    b.index.lookup id = none := by
  rw [Option.eq_none_iff_forall_ne_some]
  intro place hPlace
  exact h (hb.declares_iff.mp ⟨place, hPlace⟩)

theorem Reflects.notMem_of_lookup {id : StateId} (h : b.index.lookup id = none) :
    .state id ∉ accepted := by
  intro hMem
  obtain ⟨place, hPlace⟩ := hb.declares_iff.mpr hMem
  rw [h] at hPlace
  cases hPlace

theorem Reflects.mem_of_lookup {id : StateId} {place : Nat} (h : b.index.lookup id = some place) :
    .state id ∈ accepted :=
  hb.declares_iff.mp ⟨place, h⟩

theorem Reflects.edges_iff {t : Transition} {existing : TransitionId} :
    b.edges.lookup (t.source, t.target) = some existing ↔
      ∃ u, .transition u ∈ accepted ∧ u.source = t.source ∧ u.target = t.target ∧
        u.id = existing := by
  rw [hb.edges]
  simp only [hb.mem_transitions]

theorem Reflects.edge_new_iff {t : Transition} :
    b.edges.lookup (t.source, t.target) = none ↔
      ∀ v, .transition v ∈ accepted → (v.source, v.target) ≠ (t.source, t.target) := by
  rw [hb.edges_eq_none_iff]
  simp only [hb.mem_transitions]

theorem Reflects.mem_transitionIds_iff {id : TransitionId} :
    id ∈ b.transitionIds ↔ ∃ u, .transition u ∈ accepted ∧ u.id = id := by
  rw [hb.transitionIds]
  simp only [hb.mem_transitions]

theorem addState_eq_error_iff {id : StateId} {e : ModelError} :
    b.addState id = .error e ↔ Refuses accepted (.state id) e := by
  constructor
  · intro h
    unfold addState at h
    split at h
    · rename_i place hPlace
      rw [← Except.error.inj h]
      exact .duplicateState (hb.mem_of_lookup hPlace)
    · cases h
  · intro h
    cases h with
    | duplicateState hDeclared =>
      obtain ⟨place, hPlace⟩ := hb.declares_iff.mpr hDeclared
      rw [addState, hPlace]

theorem addTransition_eq_error_iff {t : Transition} {e : ModelError} :
    b.addTransition t = .error e ↔ Refuses accepted (.transition t) e := by
  constructor
  · intro h
    unfold addTransition at h
    split at h
    · rename_i hSource
      rw [← Except.error.inj h]
      exact .unknownSource (hb.notMem_of_lookup hSource)
    · rename_i origin hSource hTarget
      rw [← Except.error.inj h]
      exact .unknownTarget (hb.mem_of_lookup hSource) (hb.notMem_of_lookup hTarget)
    · rename_i origin place hSource hTarget
      have hSource := hb.mem_of_lookup hSource
      have hTarget := hb.mem_of_lookup hTarget
      split at h
      · rename_i existing hEdge
        obtain ⟨u, hu, hSameSource, hSameTarget, rfl⟩ := hb.edges_iff.mp hEdge
        rw [← Except.error.inj h]
        exact .duplicateTransition hSource hTarget hu hSameSource hSameTarget
      · rename_i hEdge
        split at h
        · rename_i hId
          rw [List.contains_iff_mem] at hId
          obtain ⟨u, hu, hSame⟩ := hb.mem_transitionIds_iff.mp hId
          rw [← Except.error.inj h]
          exact .duplicateTransitionId hSource hTarget (hb.edge_new_iff.mp hEdge) hu hSame
        · cases h
  · intro h
    have hPlace {id : StateId} (hDeclared : .state id ∈ accepted) :
        ∃ place, b.index.lookup id = some place := hb.declares_iff.mpr hDeclared
    cases h with
    | unknownSource hSource => simp [addTransition, hb.lookup_eq_none hSource]
    | unknownTarget hSource hTarget =>
      obtain ⟨origin, hOrigin⟩ := hPlace hSource
      simp [addTransition, hOrigin, hb.lookup_eq_none hTarget]
    | duplicateTransition hSource hTarget hu hSameSource hSameTarget =>
      obtain ⟨origin, hOrigin⟩ := hPlace hSource
      obtain ⟨place, hEnd⟩ := hPlace hTarget
      have hEdge := hb.edges_iff.mpr ⟨_, hu, hSameSource, hSameTarget, rfl⟩
      simp [addTransition, hOrigin, hEnd, hEdge]
    | duplicateTransitionId hSource hTarget hNew hu hSame =>
      obtain ⟨origin, hOrigin⟩ := hPlace hSource
      obtain ⟨place, hEnd⟩ := hPlace hTarget
      have hEdge := hb.edge_new_iff.mpr hNew
      have hId := hb.mem_transitionIds_iff.mpr ⟨_, hu, hSame⟩
      simp [addTransition, hOrigin, hEnd, hEdge, hId]

theorem addLabel_eq_error_iff {id : StateId} {label : String} {e : ModelError} :
    b.addLabel id label = .error e ↔ Refuses accepted (.label id label) e := by
  constructor
  · intro h
    unfold addLabel at h
    split at h
    · rename_i hPlace
      rw [← Except.error.inj h]
      exact .unknownLabelState (hb.notMem_of_lookup hPlace)
    · rename_i place hPlace
      split at h
      · rename_i hHas
        rw [← Except.error.inj h]
        exact .duplicateLabel (hb.mem_of_lookup hPlace) ((hb.hasLabel_iff hPlace label).mp hHas)
      · cases h
  · intro h
    cases h with
    | unknownLabelState hUnknown => rw [addLabel, hb.lookup_eq_none hUnknown]
    | duplicateLabel hDeclared hGiven =>
      obtain ⟨place, hPlace⟩ := hb.declares_iff.mpr hDeclared
      have hHas := (hb.hasLabel_iff hPlace label).mpr hGiven
      simp only [addLabel, hPlace, hHas, if_true]

/-- A call fails with the error that the accepted calls are a reason for. -/
theorem call_eq_error_iff {c : Call} {e : ModelError} :
    b.call c = .error e ↔ Refuses accepted c e := by
  cases c with
  | state id => exact addState_eq_error_iff hb
  | transition t => exact addTransition_eq_error_iff hb
  | label id label => exact addLabel_eq_error_iff hb

theorem attempt_eq_some_iff {c : Call} {e : ModelError} :
    (b.attempt c).2 = some e ↔ Refuses accepted c e := by
  rw [← call_eq_error_iff hb, attempt_eq]
  cases b.call c with
  | ok b' => simp
  | error e' => simp

end Reasons

-- ---------------------------------------------------------------------------
-- Leaving out refused calls
-- ---------------------------------------------------------------------------

theorem attempt_fst_of_error {b : Builder} {c : Call} (h : (b.attempt c).2 ≠ none) :
    (b.attempt c).1 = b := by
  rw [attempt_eq] at h ⊢
  cases hCall : b.call c with
  | ok b' =>
    rw [hCall] at h
    exact absurd rfl h
  | error e => rfl

/-- The accepted calls alone are all accepted, and lead to the same builder. -/
theorem attemptAll_acceptedCalls (b : Builder) (calls : List Call) :
    b.attemptAll (b.acceptedCalls calls) =
      ((b.attemptAll calls).1, (b.acceptedCalls calls).map fun _ => none) := by
  induction calls generalizing b with
  | nil => rfl
  | cons c rest ih =>
    have hRest : (b.attemptAll (c :: rest)).1 = ((b.attempt c).1.attemptAll rest).1 := rfl
    rw [acceptedCalls_cons, hRest]
    cases hError : (b.attempt c).2 with
    | none =>
      change b.attemptAll (c :: (b.attempt c).1.acceptedCalls rest) = _
      simp only [attemptAll, hError, ih]
      rfl
    | some e =>
      have hSame : (b.attempt c).1 = b := attempt_fst_of_error (by simp [hError])
      rw [hSame]
      exact ih b

end Builder

-- ---------------------------------------------------------------------------
-- Models from lists of parts
-- ---------------------------------------------------------------------------

open Builder (Call FitAll)

/-- The labels of states, one by one. -/
def labelPairs (labels : List (StateId × List String)) : List (StateId × String) :=
  labels.flatMap fun (id, names) => names.map (id, ·)

/-- The calls that add transitions and labels. -/
def partCalls (transitions : List Transition) (pairs : List (StateId × String)) : List Call :=
  transitions.map .transition ++ pairs.map fun (id, name) => .label id name

/-- Parts that a model can be made of: nothing occurs twice, and the states that
transitions and labels refer to are there. -/
structure PartsAgree (ids : List StateId) (transitions : List Transition)
    (pairs : List (StateId × String)) : Prop where
  states : ids.Nodup
  endpoints : ∀ t ∈ transitions, t.source ∈ ids ∧ t.target ∈ ids
  labelled : ∀ p ∈ pairs, p.1 ∈ ids
  transitionIds : (transitions.map Transition.id).Nodup
  edges : (transitions.map fun t => (t.source, t.target)).Nodup
  labels : pairs.Nodup

section Parts

variable {ids : List StateId} {transitions : List Transition} {pairs : List (StateId × String)}

theorem state_notMem_partCalls (id : StateId) : .state id ∉ partCalls transitions pairs := by
  simp [partCalls]

theorem filterMap_transition?_partCalls :
    (partCalls transitions pairs).filterMap Call.transition? = transitions := by
  have hLabels : pairs.filterMap (Call.transition? ∘ fun (id, name) => .label id name) = [] :=
    List.filterMap_eq_nil_iff.mpr fun _ _ => rfl
  rw [partCalls, List.filterMap_append, Builder.filterMap_transition?_transitions,
    List.filterMap_map, hLabels, List.append_nil]

theorem filterMap_label?_partCalls :
    (partCalls transitions pairs).filterMap Call.label? = pairs := by
  rw [partCalls, List.filterMap_append, List.filterMap_map, List.filterMap_map]
  have hTransitions : transitions.filterMap (Call.label? ∘ .transition) = [] :=
    List.filterMap_eq_nil_iff.mpr fun _ _ => rfl
  have hLabels : pairs.filterMap (Call.label? ∘ fun (id, name) => .label id name) = pairs :=
    List.filterMap_some
  rw [hTransitions, hLabels, List.nil_append]

theorem needs_partCalls :
    (∀ c ∈ partCalls transitions pairs, ∀ id ∈ c.needs, id ∈ ids) ↔
      (∀ t ∈ transitions, t.source ∈ ids ∧ t.target ∈ ids) ∧ ∀ p ∈ pairs, p.1 ∈ ids := by
  rw [partCalls, List.forall_mem_append, List.forall_mem_map, List.forall_mem_map]
  simp [Call.needs]

/-- All parts are accepted iff they agree. -/
theorem partsAgree_iff :
    PartsAgree ids transitions pairs ↔ FitAll [] (ids.map .state ++ partCalls transitions pairs) := by
  rw [Builder.fitAll_states_append_iff state_notMem_partCalls,
    Builder.pairwise_clashes_iff state_notMem_partCalls, filterMap_transition?_partCalls,
    filterMap_label?_partCalls, needs_partCalls]
  constructor
  · intro h
    exact ⟨h.states, ⟨h.endpoints, h.labelled⟩, h.transitionIds, h.edges, h.labels⟩
  · rintro ⟨hStates, ⟨hEnds, hLabelled⟩, hIds, hEdges, hLabels⟩
    exact ⟨hStates, hEnds, hLabelled, hIds, hEdges, hLabels⟩

theorem ofParts_eq (labels : List (StateId × List String)) :
    ofParts ids transitions labels =
      (Builder.callAll {} (ids.map .state ++ partCalls transitions (labelPairs labels))).map
        Builder.build := by
  have hLabels : (labels.flatMap fun (id, names) => names.map (Call.label id)) =
      (labelPairs labels).map fun (id, name) => .label id name := by
    rw [labelPairs, List.map_flatMap]
    congr 1
    funext ⟨id, names⟩
    rw [List.map_map]
    rfl
  rw [ofParts, partCalls, hLabels, List.append_assoc]

/-- Lists of parts make a model iff the parts agree. -/
theorem ofParts_eq_ok_iff {labels : List (StateId × List String)} :
    (∃ m, ofParts ids transitions labels = .ok m) ↔
      PartsAgree ids transitions (labelPairs labels) := by
  rw [partsAgree_iff, Builder.fitAll_iff Builder.reflects_empty, ofParts_eq]
  cases Builder.callAll {} (ids.map .state ++ partCalls transitions (labelPairs labels)) with
  | ok b => simp [Except.map]
  | error e => simp [Except.map]

end Parts

-- ---------------------------------------------------------------------------
-- Exact and without a trace
-- ---------------------------------------------------------------------------

/-- **Refusals are exact and leave no trace.** After any calls, the next one fails
with an error iff the calls accepted so far are the reason for that error; a
builder is the same after a call that fails, and so it is if all failing calls are
left out. Lists of parts make a model iff the parts agree. -/
theorem refusals_are_exact :
    (∀ calls : List Call,
      let b := (Builder.attemptAll {} calls).1
      let accepted := Builder.acceptedCalls {} calls
      (∀ c e, (b.attempt c).2 = some e ↔ Builder.Refuses accepted c e) ∧
      (∀ c, (b.attempt c).2 ≠ none → (b.attempt c).1 = b) ∧
      Builder.attemptAll {} accepted = (b, accepted.map fun _ => none)) ∧
    ∀ ids transitions labels, (∃ m, ofParts ids transitions labels = .ok m) ↔
      PartsAgree ids transitions (labelPairs labels) := by
  constructor
  · intro calls b accepted
    have hb : b.Reflects accepted := Builder.reflects_attemptAll Builder.reflects_empty calls
    refine ⟨?_, ?_, Builder.attemptAll_acceptedCalls {} calls⟩
    · intro c e
      exact Builder.attempt_eq_some_iff hb
    · intro c
      exact Builder.attempt_fst_of_error
  · intro ids transitions labels
    exact ofParts_eq_ok_iff

/-- The identifier of a transition is looked up last. It is taken, and the builder
stays as it was, with a refused call behind it too. -/
theorem refused_taken_identifier :
    let b := (Builder.attemptAll {} [.state ⟨1⟩, .state ⟨2⟩, .transition ⟨⟨7⟩, ⟨1⟩, ⟨2⟩⟩,
      .label ⟨3⟩ "p"]).1
    let c := Call.transition ⟨⟨7⟩, ⟨2⟩, ⟨1⟩⟩
    (b.attempt c).2 = some (.duplicateTransitionId ⟨7⟩) ∧ (b.attempt c).1 = b := by
  intro b c
  have hRefused : (b.attempt c).2 = some (.duplicateTransitionId ⟨7⟩) := by decide
  exact ⟨hRefused, (refusals_are_exact.1 _).2.1 c (by rw [hRefused]; nofun)⟩

end BranchingTime.Model
