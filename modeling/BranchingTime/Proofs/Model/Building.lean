import BranchingTime.Model.Builder
import BranchingTime.Proofs.Ascending
import BranchingTime.Proofs.BitSet
import BranchingTime.Proofs.Model.Editing

/-!
# BranchingTime — what a builder holds

A builder keeps the same facts in several places: the states in the order of
their declaration, an index into them, the transitions, the pairs of source
and target, the identifiers in use, and with each state the places of its own
transitions. `Reflects` ties all of them to the calls that were accepted; it
holds of the empty builder and survives every call, accepted or refused.

Which calls are accepted can be told from the calls alone: `Call.Fits` says
when one may follow those accepted before it.

## Results

* `attempt_cases` — a call that fits is accepted and keeps the invariant, any
  other one is refused and changes nothing.
* `reflects_attemptAll` — so any sequence of calls keeps the invariant.
* `selects_attemptAll` — the accepted calls are those that fit.
-/

namespace BranchingTime.Model.Builder

-- ---------------------------------------------------------------------------
-- Accepted calls
-- ---------------------------------------------------------------------------

/-- The state that a call declares. -/
def Call.state? : Call → Option StateId
  | .state id => some id
  | _ => none

/-- The transition that a call adds. -/
def Call.transition? : Call → Option Transition
  | .transition t => some t
  | _ => none

/-- Those of `calls` that are accepted when `b` attempts them one after the
other. -/
def acceptedCalls (b : Builder) (calls : List Call) : List Call :=
  ((calls.zip (b.attemptAll calls).2).filter (·.2.isNone)).map Prod.fst

theorem acceptedCalls_cons (b : Builder) (c : Call) (rest : List Call) :
    b.acceptedCalls (c :: rest) =
      (if (b.attempt c).2.isNone then [c] else []) ++ (b.attempt c).1.acceptedCalls rest := by
  unfold acceptedCalls
  rw [attemptAll, List.zip_cons_cons, List.filter_cons]
  split <;> rfl

/-- May a call follow the calls `earlier`? A state is declared once and before
it is used, a label is given once, and no two transitions have the same
identifier or the same source and target. -/
def Call.Fits (earlier : List Call) : Call → Prop
  | .state id => .state id ∉ earlier
  | .transition t =>
    .state t.source ∈ earlier ∧ .state t.target ∈ earlier ∧
      ∀ u, .transition u ∈ earlier → u.id ≠ t.id ∧ (u.source, u.target) ≠ (t.source, t.target)
  | .label id name => .state id ∈ earlier ∧ .label id name ∉ earlier

/-- From the calls `earlier` on, taking those calls that fit and passing over the
others leads to the calls `accepted`. -/
inductive Selects : (earlier calls accepted : List Call) → Prop where
  | nil {earlier : List Call} : Selects earlier [] earlier
  | take {earlier rest accepted : List Call} {c : Call} :
      c.Fits earlier → Selects (earlier ++ [c]) rest accepted → Selects earlier (c :: rest) accepted
  | skip {earlier rest accepted : List Call} {c : Call} :
      ¬ c.Fits earlier → Selects earlier rest accepted → Selects earlier (c :: rest) accepted

-- ---------------------------------------------------------------------------
-- The invariant
-- ---------------------------------------------------------------------------

/-- The declared states, in the order of their declaration. -/
def declared (b : Builder) : Array StateId :=
  b.states.map State.id

/-- Is the state `id` declared? -/
def Declares (b : Builder) (id : StateId) : Prop :=
  ∃ i, b.index.lookup id = some i

/-- The places of the transitions that leave `id`, in order. -/
def placesFrom (transitions : Array Transition) (id : StateId) : List Nat :=
  (List.range transitions.size).filter fun k => transitions[k]?.any (·.source == id)

/-- A state holds the places of its transitions and the labels that it was
given. -/
structure Describes (s : State) (transitions : Array Transition) (accepted : List Call) :
    Prop where
  outgoing : s.outgoing = placesFrom transitions s.id
  labelsAscend : s.labels.Pairwise (· < ·)
  labels : ∀ label, label ∈ s.labels ↔ .label s.id label ∈ accepted

/-- A builder holds what the calls `accepted` have added, in all places where it
keeps it, and nothing else. -/
structure Reflects (b : Builder) (accepted : List Call) : Prop where
  states : b.declared.toList = accepted.filterMap Call.state?
  index : ∀ id i, b.index.lookup id = some i ↔ b.declared[i]? = some id
  described : ∀ s ∈ b.states, Describes s b.transitions accepted
  labelled : ∀ id label, .label id label ∈ accepted → b.Declares id
  transitions : b.transitions.toList = accepted.filterMap Call.transition?
  endpoints : ∀ t ∈ b.transitions, b.Declares t.source ∧ b.Declares t.target
  edges : ∀ source target id, b.edges.lookup (source, target) = some id ↔
    ∃ t ∈ b.transitions, t.source = source ∧ t.target = target ∧ t.id = id
  transitionIds : ∀ id, id ∈ b.transitionIds ↔ ∃ t ∈ b.transitions, t.id = id
  distinctEdges : b.transitions.toList.Pairwise fun t u =>
    (t.source, t.target) ≠ (u.source, u.target)
  distinctIds : b.transitions.toList.Pairwise fun t u => t.id ≠ u.id

theorem reflects_empty : Reflects {} [] where
  states := by simp [declared]
  index := by simp [declared]
  described := by simp
  labelled := by simp
  transitions := rfl
  endpoints := by simp
  edges := by simp
  transitionIds := by simp
  distinctEdges := List.Pairwise.nil
  distinctIds := List.Pairwise.nil

-- ---------------------------------------------------------------------------
-- What an accepted call does
-- ---------------------------------------------------------------------------

theorem addState_eq_ok {b b' : Builder} {id : StateId} (h : b.addState id = .ok b') :
    b.index.lookup id = none ∧
      b' = { b with states := b.states.push { id }, index := (id, b.states.size) :: b.index } := by
  unfold addState at h
  split at h
  · exact absurd h (by simp)
  · rename_i hNone
    exact ⟨hNone, (Except.ok.inj h).symm⟩

theorem addTransition_eq_ok {b b' : Builder} {t : Transition} (h : b.addTransition t = .ok b') :
    ∃ origin, b.index.lookup t.source = some origin ∧ b.Declares t.target ∧
      b.edges.lookup (t.source, t.target) = none ∧ t.id ∉ b.transitionIds ∧
      b' = { b with
        states := b.states.modify origin (withOutgoing b.transitions.size)
        transitions := b.transitions.push t
        edges := ((t.source, t.target), t.id) :: b.edges
        transitionIds := t.id :: b.transitionIds } := by
  unfold addTransition at h
  split at h
  · exact absurd h (by simp)
  · exact absurd h (by simp)
  · rename_i origin i hSource hTarget
    split at h
    · exact absurd h (by simp)
    · rename_i hEdge
      split at h
      · exact absurd h (by simp)
      · rename_i hId
        rw [List.contains_iff_mem] at hId
        exact ⟨origin, hSource, ⟨i, hTarget⟩, hEdge, hId, (Except.ok.inj h).symm⟩

theorem addLabel_eq_ok {b b' : Builder} {id : StateId} {label : String}
    (h : b.addLabel id label = .ok b') :
    ∃ place, b.index.lookup id = some place ∧
      b' = { b with states := b.states.modify place (withLabel label) } := by
  unfold addLabel at h
  split at h
  · exact absurd h (by simp)
  · rename_i place hPlace
    split at h
    · exact absurd h (by simp)
    · exact ⟨place, hPlace, (Except.ok.inj h).symm⟩

-- ---------------------------------------------------------------------------
-- Changing a state in place
-- ---------------------------------------------------------------------------

/-- Changing a state in place keeps the identifiers at all places. -/
theorem map_id_modify (states : Array State) (f : State → State) (hf : ∀ s, (f s).id = s.id)
    (place : Nat) : (states.modify place f).map State.id = states.map State.id := by
  apply Array.ext_getElem?
  intro i
  rw [Array.getElem?_map, Array.getElem?_modify, Array.getElem?_map]
  split
  · cases states[i]? with
    | none => rfl
    | some s => simp [hf]
  · rfl

/-- A state after the change is the changed one, or stands at another place and
is what it was. -/
theorem mem_modify {states : Array State} {f : State → State} {place : Nat} {s : State}
    (h : s ∈ states.modify place f) :
    (∃ old, states[place]? = some old ∧ s = f old) ∨
      ∃ i, i ≠ place ∧ states[i]? = some s := by
  obtain ⟨i, hi⟩ := Array.mem_iff_getElem?.mp h
  rw [Array.getElem?_modify] at hi
  split at hi
  · rename_i hPlace
    subst hPlace
    obtain ⟨old, hOld, rfl⟩ := Option.map_eq_some_iff.mp hi
    exact .inl ⟨old, hOld, rfl⟩
  · rename_i hNe
    exact .inr ⟨i, Ne.symm hNe, hi⟩

theorem declared_getElem? {b : Builder} {i : Nat} {s : State} (h : b.states[i]? = some s) :
    b.declared[i]? = some s.id := by
  rw [declared, Array.getElem?_map, h]
  rfl

theorem placesFrom_push (transitions : Array Transition) (t : Transition) (id : StateId) :
    placesFrom (transitions.push t) id =
      placesFrom transitions id ++ if t.source = id then [transitions.size] else [] := by
  unfold placesFrom
  rw [Array.size_push, List.range_succ, List.filter_append]
  congr 1
  · apply List.filter_congr
    intro k hk
    have hk : k < transitions.size := List.mem_range.mp hk
    rw [Array.getElem?_push_lt hk, Array.getElem?_eq_getElem hk]
  · simp [List.filter_cons]

-- ---------------------------------------------------------------------------
-- Steps
-- ---------------------------------------------------------------------------

section Steps

variable {b b' : Builder} {accepted : List Call}

/-- The index leads to no other place than the one of the state itself. -/
theorem Reflects.place_unique (hb : b.Reflects accepted) {id : StateId} {i j : Nat} {s : State}
    (hi : b.index.lookup id = some i) (hj : b.states[j]? = some s) (hs : s.id = id) : i = j := by
  have hj' : b.index.lookup id = some j := (hb.index id j).mpr (hs ▸ declared_getElem? hj)
  rw [hi] at hj'
  exact Option.some.inj hj'

theorem declares_push (b : Builder) (states : Array State) (id id' : StateId) (i : Nat) :
    Declares { b with states, index := (id, i) :: b.index } id' ↔ id' = id ∨ b.Declares id' := by
  unfold Declares
  simp only [List.lookup_cons]
  by_cases hid : id' = id
  · simp [hid]
  · have hBeq : (id' == id) = false := beq_false_of_ne hid
    simp [hBeq, hid]

theorem reflects_addState (hb : b.Reflects accepted) {id : StateId}
    (h : b.addState id = .ok b') : b'.Reflects (accepted ++ [.state id]) := by
  obtain ⟨hNew, rfl⟩ := addState_eq_ok h
  have hFresh : ¬ b.Declares id := by
    rintro ⟨i, hi⟩
    rw [hNew] at hi
    cases hi
  have hSize : b.declared.size = b.states.size := Array.size_map
  have hDeclared : (b.states.push { id }).map State.id = b.declared.push id := Array.map_push
  constructor
  case states =>
    rw [declared, hDeclared, List.filterMap_append, ← hb.states]
    simp [Call.state?]
  case index =>
    intro id' i
    have hOld := hb.index id' i
    rw [declared, hDeclared, Array.getElem?_push, hSize, List.lookup_cons]
    by_cases hid : id' = id
    · -- the new state stands at the new place only
      subst hid
      rw [hNew] at hOld
      by_cases hi : i = b.states.size
      · simp [hi]
      · have hNone : b.declared[i]? ≠ some id' := fun hSome => by simp [hSome] at hOld
        simp [hi, Ne.symm hi, hNone]
    · have hBeq : (id' == id) = false := beq_false_of_ne hid
      by_cases hi : i = b.states.size
      · have hNone : b.index.lookup id' ≠ some i := fun hSome => by
          rw [hSome, hi, ← hSize] at hOld
          simp at hOld
        simp [hBeq, hi, Ne.symm hid, hi ▸ hNone]
      · simp [hBeq, hi, hOld]
  case described =>
    intro s hs
    rcases Array.mem_push.mp hs with hs | rfl
    · obtain ⟨hOutgoing, hAscend, hLabels⟩ := hb.described s hs
      exact ⟨hOutgoing, hAscend, fun label => by simp [hLabels label]⟩
    · -- nothing refers to a state before it is declared
      refine ⟨?_, List.Pairwise.nil, ?_⟩
      · symm
        rw [placesFrom, List.filter_eq_nil_iff]
        intro k hk
        have hk : k < b.transitions.size := List.mem_range.mp hk
        obtain ⟨hSource, -⟩ := hb.endpoints b.transitions[k] (Array.getElem_mem hk)
        rw [Array.getElem?_eq_getElem hk, Option.any_some, beq_iff_eq]
        intro hEq
        exact hFresh (by rw [← show b.transitions[k].source = id from hEq]; exact hSource)
      · intro label
        have hNot : Call.label id label ∉ accepted := fun hMem =>
          hFresh (hb.labelled id label hMem)
        simp [hNot]
  case labelled =>
    intro id' label hMem
    rw [declares_push]
    exact .inr (hb.labelled id' label (by simpa using hMem))
  case transitions => simp [hb.transitions, Call.transition?]
  case endpoints =>
    intro t ht
    obtain ⟨hSource, hTarget⟩ := hb.endpoints t ht
    rw [declares_push, declares_push]
    exact ⟨.inr hSource, .inr hTarget⟩
  case edges => exact hb.edges
  case transitionIds => exact hb.transitionIds
  case distinctEdges => exact hb.distinctEdges
  case distinctIds => exact hb.distinctIds

theorem Reflects.edges_eq_none_iff (hb : b.Reflects accepted) {t : Transition} :
    b.edges.lookup (t.source, t.target) = none ↔
      ∀ u ∈ b.transitions, (u.source, u.target) ≠ (t.source, t.target) := by
  rw [Option.eq_none_iff_forall_ne_some]
  constructor
  · intro hNone u hu hSame
    obtain ⟨hSource, hTarget⟩ := Prod.mk.inj hSame
    exact hNone u.id ((hb.edges _ _ _).mpr ⟨u, hu, hSource, hTarget, rfl⟩)
  · intro hNew existing hSome
    obtain ⟨u, hu, hSource, hTarget, -⟩ := (hb.edges _ _ _).mp hSome
    exact hNew u hu (by rw [hSource, hTarget])

/-- The lookups before a transition is added tell whether it repeats one. -/
theorem Reflects.unused_iff (hb : b.Reflects accepted) {t : Transition} :
    b.edges.lookup (t.source, t.target) = none ∧ t.id ∉ b.transitionIds ↔
      ∀ u ∈ b.transitions, u.id ≠ t.id ∧ (u.source, u.target) ≠ (t.source, t.target) := by
  have hId : t.id ∉ b.transitionIds ↔ ∀ u ∈ b.transitions, u.id ≠ t.id := by
    rw [hb.transitionIds]
    exact ⟨fun hNew u hu hEq => hNew ⟨u, hu, hEq⟩, fun hNew ⟨u, hu, hEq⟩ => hNew u hu hEq⟩
  rw [hb.edges_eq_none_iff, hId]
  constructor
  · rintro ⟨hEdge, hId⟩ u hu
    exact ⟨hId u hu, hEdge u hu⟩
  · intro hNew
    exact ⟨fun u hu => (hNew u hu).2, fun u hu => (hNew u hu).1⟩

theorem reflects_addTransition (hb : b.Reflects accepted) {t : Transition}
    (h : b.addTransition t = .ok b') : b'.Reflects (accepted ++ [.transition t]) := by
  obtain ⟨origin, hSource, hTarget, hEdge, hId, rfl⟩ := addTransition_eq_ok h
  have hNew := hb.unused_iff.mp ⟨hEdge, hId⟩
  have hDeclared : (b.states.modify origin (withOutgoing b.transitions.size)).map State.id =
      b.declared := map_id_modify b.states (withOutgoing _) (fun _ => rfl) origin
  constructor
  case states =>
    rw [declared, hDeclared, List.filterMap_append]
    exact hb.states.trans (List.append_nil _).symm
  case index =>
    intro id i
    rw [declared, hDeclared]
    exact hb.index id i
  case described =>
    intro s hs
    change s ∈ b.states.modify origin (withOutgoing b.transitions.size) at hs
    rcases mem_modify hs with ⟨old, hOld, rfl⟩ | ⟨i, hi, hAt⟩
    · obtain ⟨hOutgoing, hAscend, hLabels⟩ := hb.described old (Array.mem_of_getElem? hOld)
      have hOrigin : old.id = t.source := by
        have hAt := (hb.index t.source origin).mp hSource
        rw [declared_getElem? hOld] at hAt
        exact Option.some.inj hAt
      refine ⟨?_, hAscend, fun label => by simp [withOutgoing, hLabels label]⟩
      simp only [withOutgoing]
      rw [placesFrom_push, hOutgoing, if_pos hOrigin.symm]
    · obtain ⟨hOutgoing, hAscend, hLabels⟩ := hb.described s (Array.mem_of_getElem? hAt)
      have hOther : t.source ≠ s.id := fun hEq =>
        hi (hb.place_unique hSource hAt hEq.symm).symm
      refine ⟨?_, hAscend, fun label => by simp [hLabels label]⟩
      rw [placesFrom_push, hOutgoing, if_neg hOther, List.append_nil]
  case labelled =>
    intro id label hMem
    exact hb.labelled id label (by simpa using hMem)
  case transitions => simp [hb.transitions, Call.transition?]
  case endpoints =>
    intro u hu
    rcases Array.mem_push.mp hu with hu | rfl
    · exact hb.endpoints u hu
    · exact ⟨⟨origin, hSource⟩, hTarget⟩
  case edges =>
    intro source target id
    have hOld := hb.edges source target id
    rw [List.lookup_cons]
    simp only [Array.mem_push]
    by_cases hPair : (source, target) = (t.source, t.target)
    · rw [beq_iff_eq.mpr hPair]
      grind
    · rw [beq_false_of_ne hPair]
      grind
  case transitionIds =>
    intro id
    have hOld := hb.transitionIds id
    rw [List.mem_cons]
    simp only [Array.mem_push]
    grind
  case distinctEdges =>
    rw [Array.toList_push, List.pairwise_append]
    refine ⟨hb.distinctEdges, List.pairwise_singleton _ _, ?_⟩
    intro u hu v hv
    rw [List.mem_singleton.mp hv]
    exact (hNew u (Array.mem_toList_iff.mp hu)).2
  case distinctIds =>
    rw [Array.toList_push, List.pairwise_append]
    refine ⟨hb.distinctIds, List.pairwise_singleton _ _, ?_⟩
    intro u hu v hv
    rw [List.mem_singleton.mp hv]
    exact (hNew u (Array.mem_toList_iff.mp hu)).1

theorem reflects_addLabel (hb : b.Reflects accepted) {id : StateId} {label : String}
    (h : b.addLabel id label = .ok b') : b'.Reflects (accepted ++ [.label id label]) := by
  obtain ⟨place, hPlace, rfl⟩ := addLabel_eq_ok h
  have hDeclared : (b.states.modify place (withLabel label)).map State.id = b.declared :=
    map_id_modify b.states (withLabel label) (fun _ => rfl) place
  constructor
  case states =>
    rw [declared, hDeclared, List.filterMap_append]
    exact hb.states.trans (List.append_nil _).symm
  case index =>
    intro id' i
    rw [declared, hDeclared]
    exact hb.index id' i
  case described =>
    intro s hs
    change s ∈ b.states.modify place (withLabel label) at hs
    rcases mem_modify hs with ⟨old, hOld, rfl⟩ | ⟨i, hi, hAt⟩
    · obtain ⟨hOutgoing, hAscend, hLabels⟩ := hb.described old (Array.mem_of_getElem? hOld)
      have hHere : old.id = id := by
        have hAt := (hb.index id place).mp hPlace
        rw [declared_getElem? hOld] at hAt
        exact Option.some.inj hAt
      refine ⟨hOutgoing, Ascending.pairwise_insert hAscend, ?_⟩
      intro label'
      simp [withLabel, hLabels label', hHere, or_comm]
    · obtain ⟨hOutgoing, hAscend, hLabels⟩ := hb.described s (Array.mem_of_getElem? hAt)
      have hOther : s.id ≠ id := fun hEq => hi (hb.place_unique hPlace hAt hEq).symm
      exact ⟨hOutgoing, hAscend, fun label' => by simp [hLabels label', hOther]⟩
  case labelled =>
    intro id' label' hMem
    rcases List.mem_append.mp hMem with hMem | hMem
    · exact hb.labelled id' label' hMem
    · have hEq : id' = id := by simp_all
      exact ⟨place, hEq ▸ hPlace⟩
  case transitions => simp [hb.transitions, Call.transition?]
  case endpoints => exact hb.endpoints
  case edges => exact hb.edges
  case transitionIds => exact hb.transitionIds
  case distinctEdges => exact hb.distinctEdges
  case distinctIds => exact hb.distinctIds

/-- An accepted call adds itself to what the builder reflects. -/
theorem reflects_call (hb : b.Reflects accepted) {c : Call} (h : b.call c = .ok b') :
    b'.Reflects (accepted ++ [c]) := by
  cases c with
  | state id => exact reflects_addState hb h
  | transition t => exact reflects_addTransition hb h
  | label id label => exact reflects_addLabel hb h

-- ---------------------------------------------------------------------------
-- Which calls are accepted
-- ---------------------------------------------------------------------------

theorem Reflects.declares_iff (hb : b.Reflects accepted) {id : StateId} :
    b.Declares id ↔ .state id ∈ accepted := by
  simp only [Declares, hb.index]
  rw [← Array.mem_iff_getElem?, ← Array.mem_toList_iff, hb.states, List.mem_filterMap]
  constructor
  · rintro ⟨c, hc, hState⟩
    cases c <;> simp_all [Call.state?]
  · intro h
    exact ⟨.state id, h, rfl⟩

theorem Reflects.mem_transitions (hb : b.Reflects accepted) {t : Transition} :
    t ∈ b.transitions ↔ .transition t ∈ accepted := by
  rw [← Array.mem_toList_iff, hb.transitions, List.mem_filterMap]
  constructor
  · rintro ⟨c, hc, hTransition⟩
    cases c <;> simp_all [Call.transition?]
  · intro h
    exact ⟨.transition t, h, rfl⟩

theorem fits_state_iff (hb : b.Reflects accepted) {id : StateId} :
    (Call.state id).Fits accepted ↔ ∃ b', b.addState id = .ok b' := by
  rw [Call.Fits, ← hb.declares_iff]
  unfold Declares addState
  cases b.index.lookup id <;> simp

theorem fits_transition_iff (hb : b.Reflects accepted) {t : Transition} :
    (Call.transition t).Fits accepted ↔ ∃ b', b.addTransition t = .ok b' := by
  rw [Call.Fits, ← hb.declares_iff, ← hb.declares_iff]
  simp only [← hb.mem_transitions, ← hb.unused_iff]
  constructor
  · rintro ⟨⟨i, hi⟩, ⟨j, hj⟩, hEdge, hId⟩
    simp [addTransition, hi, hj, hEdge, hId]
  · rintro ⟨b', h⟩
    obtain ⟨origin, hSource, hTarget, hEdge, hId, -⟩ := addTransition_eq_ok h
    exact ⟨⟨origin, hSource⟩, hTarget, hEdge, hId⟩

theorem Reflects.hasLabel_iff (hb : b.Reflects accepted) {id : StateId} {place : Nat}
    (hPlace : b.index.lookup id = some place) (label : String) :
    b.states[place]?.any (·.hasLabel label) = true ↔ .label id label ∈ accepted := by
  have hAt := (hb.index id place).mp hPlace
  rw [declared, Array.getElem?_map, Option.map_eq_some_iff] at hAt
  obtain ⟨s, hs, rfl⟩ := hAt
  rw [hs, Option.any_some, State.hasLabel, List.contains_iff_mem,
    (hb.described s (Array.mem_of_getElem? hs)).labels label]

theorem fits_label_iff (hb : b.Reflects accepted) {id : StateId} {label : String} :
    (Call.label id label).Fits accepted ↔ ∃ b', b.addLabel id label = .ok b' := by
  rw [Call.Fits, ← hb.declares_iff]
  unfold Declares addLabel
  cases hPlace : b.index.lookup id with
  | none => simp
  | some place =>
    have hHas := hb.hasLabel_iff hPlace label
    by_cases hGiven : .label id label ∈ accepted
    · simp [hHas.mpr hGiven, hGiven]
    · simp [mt hHas.mp hGiven, hGiven]

/-- The calls that fit are those that are accepted. -/
theorem fits_iff (hb : b.Reflects accepted) {c : Call} :
    c.Fits accepted ↔ ∃ b', b.call c = .ok b' := by
  cases c with
  | state id => exact fits_state_iff hb
  | transition t => exact fits_transition_iff hb
  | label id label => exact fits_label_iff hb

end Steps

-- ---------------------------------------------------------------------------
-- Runs
-- ---------------------------------------------------------------------------

/-- A call that fits is accepted, any other one is refused and changes nothing. -/
theorem attempt_cases {b : Builder} {accepted : List Call} (hb : b.Reflects accepted) (c : Call) :
    (c.Fits accepted ∧ (b.attempt c).2 = none ∧ (b.attempt c).1.Reflects (accepted ++ [c])) ∨
      ¬ c.Fits accepted ∧ ∃ e, b.attempt c = (b, some e) := by
  rw [fits_iff hb, attempt_eq]
  cases hCall : b.call c with
  | ok b' => exact .inl ⟨⟨b', rfl⟩, rfl, reflects_call hb hCall⟩
  | error e => exact .inr ⟨by simp, e, rfl⟩

/-- After any sequence of calls the builder reflects those that were accepted. -/
theorem reflects_attemptAll {b : Builder} {accepted : List Call} (hb : b.Reflects accepted)
    (calls : List Call) :
    (b.attemptAll calls).1.Reflects (accepted ++ b.acceptedCalls calls) := by
  induction calls generalizing b accepted with
  | nil => simpa [attemptAll, acceptedCalls] using hb
  | cons c rest ih =>
    rw [acceptedCalls_cons]
    change ((b.attempt c).1.attemptAll rest).1.Reflects _
    rcases attempt_cases hb c with ⟨-, hNone, hNext⟩ | ⟨-, e, hAttempt⟩
    · rw [hNone, ← List.append_assoc]
      exact ih hNext
    · rw [hAttempt]
      exact ih hb

/-- The accepted calls are those that fit. -/
theorem selects_attemptAll {b : Builder} {accepted : List Call} (hb : b.Reflects accepted)
    (calls : List Call) : Selects accepted calls (accepted ++ b.acceptedCalls calls) := by
  induction calls generalizing b accepted with
  | nil =>
    rw [acceptedCalls, List.zip_nil_left, List.filter_nil, List.map_nil, List.append_nil]
    exact .nil
  | cons c rest ih =>
    rw [acceptedCalls_cons]
    rcases attempt_cases hb c with ⟨hFits, hNone, hNext⟩ | ⟨hNot, e, hAttempt⟩
    · rw [hNone, ← List.append_assoc]
      exact .take hFits (ih hNext)
    · rw [hAttempt]
      exact .skip hNot (ih hb)

example : acceptedCalls {} [.state ⟨0⟩, .state ⟨0⟩, .label ⟨1⟩ "p", .label ⟨0⟩ "p"] =
    [.state ⟨0⟩, .label ⟨0⟩ "p"] := by
  decide

end BranchingTime.Model.Builder
