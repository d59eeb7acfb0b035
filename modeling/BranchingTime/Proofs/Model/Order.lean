import BranchingTime.Check.Satisfaction
import BranchingTime.Proofs.Model.Refusals
import BranchingTime.Proofs.Model.RoundTrip

/-!
# BranchingTime — the order of parts

The order in which the parts of a model are given decides where its transitions
stand, and in which order a state lists its successors. Nothing else depends on
it, and none of the questions that are asked of a model does: positions ascend by
identifier, so the states of two such models match one by one, and each set that
is computed is the same set of positions.

## Results

* `SameParts.matches` — models with the same parts match.
* `Matches.check_eq` — matching models are checked in the same steps.
* `ofParts_perm` — the order of parts does not matter.
-/

namespace BranchingTime

/-- Two states that differ at most in the order of their transitions. -/
structure State.Matches (s t : State) : Prop where
  id : s.id = t.id
  labels : s.labels = t.labels
  isDeadlock : s.isDeadlock = t.isDeadlock
  successors : s.successors.Perm t.successors

namespace Model

open Builder (Call)

/-- Two models whose states match position by position. -/
structure Matches (m n : Model) : Prop where
  ids : ∀ i : Nat, m.states[i]?.map State.id = n.states[i]?.map State.id
  states : ∀ (i : Nat) (s t : State), m.states[i]? = some s → n.states[i]? = some t →
    s.Matches t
  position : ∀ id, m.position? id = n.position? id
  size : m.size = n.size
  allPositions : m.allPositions = n.allPositions

-- ---------------------------------------------------------------------------
-- Models with the same parts
-- ---------------------------------------------------------------------------

section SameParts

variable {m n : Model} {accepted others : List Call} (hm : m.IsBuiltFrom accepted)
  (hn : n.IsBuiltFrom others) (h : SameParts m n)
include h

theorem SameParts.getElem?_id (i : Nat) :
    m.states[i]?.map State.id = n.states[i]?.map State.id := by
  have hAt := congrArg (·[i]?) h.states
  simpa only [List.getElem?_map, Array.getElem?_toList] using hAt

theorem SameParts.size_eq : m.size = n.size := by
  have hLength := congrArg List.length h.states
  rwa [List.length_map, List.length_map] at hLength

theorem SameParts.all_transitions_eq (p : Transition → Bool) :
    m.transitions.all p = n.transitions.all p := by
  rw [← Array.all_toList, ← Array.all_toList]
  exact h.transitions.all_eq

include hm hn

theorem SameParts.deadlocks_eq : m.deadlocks = n.deadlocks := by
  have hList : m.deadlocks.toList = n.deadlocks.toList := by
    rw [hm.deadlocks, hn.deadlocks, hm.allStates, hn.allStates, h.states]
    simp only [h.all_transitions_eq]
  exact StateSet.ext hList

theorem SameParts.position?_eq (id : StateId) : m.position? id = n.position? id := by
  ext i
  rw [hm.index, hn.index, h.getElem?_id]

theorem SameParts.transitionsOf_perm (id : StateId) :
    (m.transitionsOf id).Perm (n.transitionsOf id) := by
  rw [hm.transitionsOf, hn.transitionsOf]
  exact h.transitions.filter _

theorem SameParts.state_matches {s t : State} (hs : s ∈ m.states) (ht : t ∈ n.states)
    (hId : s.id = t.id) : s.Matches t where
  id := hId
  labels := by
    have hLabels := h.labels s.id
    rw [hm.labelsOf?_id hs, hId, hn.labelsOf?_id ht] at hLabels
    exact Option.some.inj hLabels
  isDeadlock := by
    rw [hm.isDeadlock s hs, hn.isDeadlock t ht, hId, h.all_transitions_eq]
  successors := by
    have hPositions : (s.successors.map some).Perm (t.successors.map some) := by
      rw [hm.successors s hs, hn.successors t ht, hId]
      simp only [h.position?_eq hm hn]
      exact (h.transitionsOf_perm hm hn t.id).map _
    simpa using hPositions.filterMap id

/-- Models with the same parts match, if they keep the set of their positions in
the same way. -/
theorem SameParts.matches (hAll : m.allPositions = n.allPositions) : Matches m n where
  ids := h.getElem?_id
  states := by
    intro i s t hs ht
    refine h.state_matches hm hn (Array.mem_of_getElem? hs) (Array.mem_of_getElem? ht) ?_
    have hIds := h.getElem?_id i
    rw [hs, ht] at hIds
    exact Option.some.inj hIds
  position := h.position?_eq hm hn
  size := h.size_eq
  allPositions := hAll

end SameParts

-- ---------------------------------------------------------------------------
-- Questions to matching models
-- ---------------------------------------------------------------------------

section Questions

variable {m n : Model} (h : Matches m n)
include h

/-- The same positions satisfy a condition that does not tell matching states
apart. -/
theorem Matches.positionsWhere_eq {p p' : State → Bool} (hSame : ∀ s t, s.Matches t → p s = p' t) :
    m.positionsWhere p = n.positionsWhere p' := by
  have hAny (i : Nat) : m.states[i]?.any p = n.states[i]?.any p' := by
    have hIds := h.ids i
    cases hs : m.states[i]? with
    | none =>
      rw [hs, Option.map_none, eq_comm, Option.map_eq_none_iff] at hIds
      rw [hIds]
      rfl
    | some s =>
      rw [hs, Option.map_some, eq_comm, Option.map_eq_some_iff] at hIds
      obtain ⟨t, ht, -⟩ := hIds
      rw [ht]
      exact hSame s t (h.states i s t hs ht)
  rw [positionsWhere, positionsWhere, h.size]
  simp only [hAny]

theorem Matches.pre_eq (q : Quantifier) (X : BitSet) : m.pre q X = n.pre q X := by
  cases q with
  | some =>
    refine h.positionsWhere_eq fun s t hst => ?_
    exact hst.successors.any_eq
  | all =>
    refine h.positionsWhere_eq fun s t hst => ?_
    rw [hst.isDeadlock, hst.successors.all_eq]

theorem Matches.complement_eq (X : BitSet) : m.complement X = n.complement X := by
  rw [complement, complement, h.allPositions]

theorem Matches.toStateSet_eq (X : BitSet) : m.toStateSet X = n.toStateSet X := by
  rw [toStateSet, toStateSet]
  simp only [h.ids]

theorem Matches.preStates_eq (q : Quantifier) (X : StateSet) :
    m.preStates q X = n.preStates q X := by
  have hPositions : m.toPositions X = n.toPositions X := by
    rw [toPositions, toPositions, h.size, funext h.position]
  rw [preStates, preStates, hPositions, h.pre_eq, h.toStateSet_eq]

theorem Matches.someUntil_eq (allowed goal : BitSet) :
    m.someUntil allowed goal = n.someUntil allowed goal := by
  have hStep : m.someUntilStep allowed = n.someUntilStep allowed := by
    funext current
    rw [someUntilStep, someUntilStep, h.pre_eq]
  rw [someUntil, someUntil, leastFixpoint, leastFixpoint, hStep, h.size]

theorem Matches.allEventually_eq (goal : BitSet) : m.allEventually goal = n.allEventually goal := by
  have hStep : m.allEventuallyStep = n.allEventuallyStep := by
    funext current
    rw [allEventuallyStep, allEventuallyStep, h.pre_eq]
  rw [allEventually, allEventually, leastFixpoint, leastFixpoint, hStep, h.size]

/-- A node is evaluated to the same positions, through the same fixpoints. -/
theorem Matches.evaluateNode_eq (node : Node BitSet) : m.evaluateNode node = n.evaluateNode node := by
  cases node with
  | atom name =>
    have hPositions : m.positionsWhere (·.hasLabel name) = n.positionsWhere (·.hasLabel name) :=
      h.positionsWhere_eq fun s t hst => by rw [State.hasLabel, State.hasLabel, hst.labels]
    rw [evaluateNode, evaluateNode, hPositions]
  | not φ => rw [evaluateNode, evaluateNode, h.complement_eq]
  | connective op φ ψ =>
    cases op <;> simp only [evaluateNode, evaluateConnective, h.complement_eq]
  | temporal q p φ =>
    cases p <;> cases q <;>
      simp only [evaluateNode, evaluateTemporal, outside, h.pre_eq, h.complement_eq,
        h.allPositions, h.someUntil_eq, h.allEventually_eq]
  | untl q φ ψ =>
    cases q <;>
      simp only [evaluateNode, evaluateUntl, h.complement_eq, h.someUntil_eq, h.allEventually_eq]

/-- A formula is checked in the same steps. -/
theorem Matches.check_eq (f : Formula) : m.check f = n.check f := by
  have hRecord : m.recordNode = n.recordNode := by
    funext node evaluations
    rw [recordNode, recordNode, h.evaluateNode_eq]
  rw [check, check, hRecord]
  simp only [h.toStateSet_eq]

end Questions

-- ---------------------------------------------------------------------------
-- Parts in another order
-- ---------------------------------------------------------------------------

theorem allPositions_build (b : Builder) :
    b.build.allPositions =
      (BitSet.withCapacity b.build.size).insertMany (List.range b.build.size) := by
  have hSize : b.build.size = b.sortedStates.length := by simp [Model.size, Builder.build]
  rw [hSize]
  rfl

section Parts

variable {ids ids' : List StateId} {transitions transitions' : List Transition}

/-- Whether parts agree does not depend on their order. -/
theorem PartsAgree.perm {pairs pairs' : List (StateId × String)}
    (h : PartsAgree ids transitions pairs) (hStates : ids.Perm ids')
    (hTransitions : transitions.Perm transitions') (hLabels : pairs.Perm pairs') :
    PartsAgree ids' transitions' pairs' where
  states := hStates.nodup_iff.mp h.states
  endpoints := by
    intro t ht
    obtain ⟨hSource, hTarget⟩ := h.endpoints t (hTransitions.mem_iff.mpr ht)
    exact ⟨hStates.mem_iff.mp hSource, hStates.mem_iff.mp hTarget⟩
  labelled := by
    intro p hp
    exact hStates.mem_iff.mp (h.labelled p (hLabels.mem_iff.mpr hp))
  transitionIds := (hTransitions.map _).nodup_iff.mp h.transitionIds
  edges := (hTransitions.map _).nodup_iff.mp h.edges
  labels := hLabels.nodup_iff.mp h.labels

variable {labels labels' : List (StateId × List String)}

/-- A model of lists of parts is built from the calls for them. -/
theorem exists_build_of_ofParts {m : Model} (h : ofParts ids transitions labels = .ok m) :
    ∃ b : Builder, m = b.build ∧
      m.IsBuiltFrom (ids.map .state ++ partCalls transitions (labelPairs labels)) := by
  rw [ofParts_eq] at h
  cases hCalls : Builder.callAll {} (ids.map .state ++ partCalls transitions (labelPairs labels)) with
  | error e =>
    rw [hCalls] at h
    cases h
  | ok b =>
    rw [hCalls] at h
    cases h
    exact ⟨b, rfl, isBuiltFrom_of_callAll hCalls⟩

theorem state_mem_parts {pairs : List (StateId × String)} {id : StateId} :
    .state id ∈ ids.map Call.state ++ partCalls transitions pairs ↔ id ∈ ids := by
  simp [partCalls]

theorem label_mem_parts {pairs : List (StateId × String)} {id : StateId} {label : String} :
    .label id label ∈ ids.map Call.state ++ partCalls transitions pairs ↔ (id, label) ∈ pairs := by
  simp [partCalls]

theorem filterMap_transition?_parts {pairs : List (StateId × String)} :
    (ids.map Call.state ++ partCalls transitions pairs).filterMap Call.transition? =
      transitions := by
  rw [List.filterMap_append, filterMap_transition?_partCalls,
    Builder.filterMap_transition?_states, List.nil_append]

theorem sameParts_of_perm {m n : Model} (hStates : ids.Perm ids')
    (hTransitions : transitions.Perm transitions')
    (hLabels : (labelPairs labels).Perm (labelPairs labels'))
    (hm : m.IsBuiltFrom (ids.map .state ++ partCalls transitions (labelPairs labels)))
    (hn : n.IsBuiltFrom (ids'.map .state ++ partCalls transitions' (labelPairs labels'))) :
    SameParts m n := by
  refine sameParts_of_accepted hm hn ?_ ?_ ?_
  · intro id
    rw [state_mem_parts, state_mem_parts, hStates.mem_iff]
  · intro id label _
    rw [label_mem_parts, label_mem_parts, hLabels.mem_iff]
  · rwa [filterMap_transition?_parts, filterMap_transition?_parts]

/-- **The order of parts does not matter.** The same parts in another order are
refused too, or make a model with the same text, the same dead ends, the same
predecessors of every set, and the same answer at the same cost for every formula. -/
theorem ofParts_perm (hStates : ids.Perm ids') (hTransitions : transitions.Perm transitions')
    (hLabels : (labelPairs labels).Perm (labelPairs labels')) :
    ((∃ e, ofParts ids transitions labels = .error e) ∧
      ∃ e, ofParts ids' transitions' labels' = .error e) ∨
    ∃ m n, ofParts ids transitions labels = .ok m ∧ ofParts ids' transitions' labels' = .ok n ∧
      m.render = n.render ∧ m.deadlocks = n.deadlocks ∧
      (∀ q X, m.preStates q X = n.preStates q X) ∧
      ∀ f, m.satisfying f = n.satisfying f ∧ (m.check f).cost = (n.check f).cost := by
  cases h : ofParts ids transitions labels with
  | error e =>
    refine .inl ⟨⟨e, rfl⟩, ?_⟩
    cases h' : ofParts ids' transitions' labels' with
    | error e' => exact ⟨e', rfl⟩
    | ok n =>
      have hAgree := ofParts_eq_ok_iff.mp ⟨n, h'⟩
      obtain ⟨m, hm⟩ :=
        ofParts_eq_ok_iff.mpr (hAgree.perm hStates.symm hTransitions.symm hLabels.symm)
      rw [h] at hm
      cases hm
  | ok m =>
    have hAgree := ofParts_eq_ok_iff.mp ⟨m, h⟩
    obtain ⟨n, h'⟩ := ofParts_eq_ok_iff.mpr (hAgree.perm hStates hTransitions hLabels)
    obtain ⟨b, hb, hm⟩ := exists_build_of_ofParts h
    obtain ⟨b', hb', hn⟩ := exists_build_of_ofParts h'
    have hSame := sameParts_of_perm hStates hTransitions hLabels hm hn
    have hAll : m.allPositions = n.allPositions := by
      have hSize := hSame.size_eq
      rw [hb, hb'] at hSize ⊢
      rw [allPositions_build, allPositions_build, hSize]
    have hMatches := hSame.matches hm hn hAll
    refine .inr ⟨m, n, rfl, h', hSame.render_eq hm hn, hSame.deadlocks_eq hm hn,
      hMatches.preStates_eq, ?_⟩
    intro f
    rw [satisfying, satisfying, hMatches.check_eq]
    exact ⟨rfl, rfl⟩

/-- Three states in another order, transitions backwards, and the labels of a state
in one entry or in two. -/
theorem ofParts_regrouped :
    ∃ m n,
      ofParts [⟨1⟩, ⟨2⟩, ⟨3⟩] [⟨⟨1⟩, ⟨1⟩, ⟨2⟩⟩, ⟨⟨2⟩, ⟨1⟩, ⟨3⟩⟩, ⟨⟨3⟩, ⟨3⟩, ⟨1⟩⟩]
        [(⟨1⟩, ["p", "q"]), (⟨3⟩, ["p"])] = .ok m ∧
      ofParts [⟨3⟩, ⟨1⟩, ⟨2⟩] [⟨⟨3⟩, ⟨3⟩, ⟨1⟩⟩, ⟨⟨2⟩, ⟨1⟩, ⟨3⟩⟩, ⟨⟨1⟩, ⟨1⟩, ⟨2⟩⟩]
        [(⟨1⟩, ["q"]), (⟨3⟩, ["p"]), (⟨2⟩, []), (⟨1⟩, ["p"])] = .ok n ∧
      m.render = n.render ∧ m.deadlocks = n.deadlocks ∧
      (∀ q X, m.preStates q X = n.preStates q X) ∧
      ∀ f, m.satisfying f = n.satisfying f ∧ (m.check f).cost = (n.check f).cost := by
  refine (ofParts_perm ?_ ?_ ?_).resolve_left ?_
  · decide
  · decide
  · decide
  · rintro ⟨⟨e, hError⟩, -⟩
    cases hError

end Parts

end Model

end BranchingTime
