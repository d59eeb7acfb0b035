import BranchingTime.Proofs.Model.Building
import BranchingTime.Proofs.StateSet

/-!
# BranchingTime — finished models

Finishing a model sorts its states, so every place that was known before is
out of date: the index and the positions of the successors are computed anew,
while the places of the transitions stay. `IsBuiltFrom` says what the finished
model is in terms of the accepted calls alone.

## Results

* `isBuiltFrom_build` — a builder that reflects the accepted calls finishes as
  the model that these calls describe.
* `IsBuiltFrom.state?_eq_some_iff` — looking up a state finds it.
* `build_attemptAll` — hence so does every run of a builder.
-/

namespace BranchingTime.Model

open Builder (Call placesFrom positionIndex finish)

/-- The model holds what the calls `accepted` describe, in every place where it
keeps it. -/
structure IsBuiltFrom (m : Model) (accepted : List Call) : Prop where
  /-- The states ascend strictly by identifier. -/
  ascending : m.states.toList.Pairwise fun s t => s.id < t.id
  /-- The states are the declared ones. -/
  declared : ∀ id, (∃ s ∈ m.states, s.id = id) ↔ .state id ∈ accepted
  /-- The index leads from each identifier to its position, and nowhere else. -/
  index : ∀ id i, m.position? id = some i ↔ m.states[i]?.map State.id = some id
  /-- The transitions are the accepted ones, in the order of the calls. -/
  transitions : m.transitions.toList = accepted.filterMap Call.transition?
  distinctIds : m.transitions.toList.Pairwise fun t u => t.id ≠ u.id
  distinctEdges : m.transitions.toList.Pairwise fun t u =>
    (t.source, t.target) ≠ (u.source, u.target)
  endpoints : ∀ t ∈ m.transitions, m.contains t.source = true ∧ m.contains t.target = true
  /-- The transitions of a state are those that leave it, in the order of the
  model. -/
  transitionsOf : ∀ id, m.transitionsOf id = m.transitions.toList.filter (·.source == id)
  /-- The successors of a state are the positions of the targets of its
  transitions, in the same order. -/
  successors : ∀ s ∈ m.states,
    s.successors.map some = (m.transitionsOf s.id).map fun t => m.position? t.target
  /-- A state of the model carries the labels that it was given. -/
  labels : ∀ id, m.contains id = true →
    ∃ labels, m.labelsOf? id = some labels ∧ labels.Pairwise (· < ·) ∧
      ∀ label, label ∈ labels ↔ .label id label ∈ accepted
  allStates : m.allStates.toList = m.states.toList.map State.id
  allPositions : m.allPositions.toList = List.range m.size
  /-- The dead ends are the states that are the source of no transition. -/
  isDeadlock : ∀ s ∈ m.states, s.isDeadlock = m.transitions.all (·.source != s.id)
  deadlocks : m.deadlocks.toList =
    m.allStates.toList.filter fun id => m.transitions.all (·.source != id)

/-- The states that satisfy a condition come in the order of the model. -/
theorem toList_statesWhere {m : Model} (hAscends : m.states.toList.Pairwise fun s t => s.id < t.id)
    (condition : State → Bool) :
    (m.statesWhere condition).toList = (m.states.toList.filter condition).map State.id := by
  refine StateSet.toList_ofList ?_
  rw [List.pairwise_map]
  exact hAscends.filter _

-- ---------------------------------------------------------------------------
-- Sorting and indexing
-- ---------------------------------------------------------------------------

/-- No state is declared twice. -/
theorem Builder.Reflects.nodup_declared {b : Builder} {accepted : List Call}
    (hb : b.Reflects accepted) : b.declared.toList.Nodup := by
  rw [List.nodup_iff_pairwise_ne, List.pairwise_iff_getElem]
  intro i j hi hj hij hEq
  have hAt : ∀ k (hk : k < b.declared.size), b.index.lookup b.declared[k] = some k := fun k hk =>
    (hb.index _ k).mpr (Array.getElem?_eq_getElem hk)
  have hFirst := hAt i hi
  have hSecond := hAt j hj
  rw [← Array.getElem_toList hj, ← hEq, Array.getElem_toList, hFirst] at hSecond
  exact Nat.ne_of_lt hij (Option.some.inj hSecond)

/-- The sorted states ascend strictly, since no identifier occurs twice. -/
theorem Builder.Reflects.ascending {b : Builder} {accepted : List Call}
    (hb : b.Reflects accepted) : b.sortedStates.Pairwise fun s t => s.id < t.id := by
  have hNodup := hb.nodup_declared
  rw [Builder.declared, Array.toList_map, List.nodup_iff_pairwise_ne, List.pairwise_map] at hNodup
  refine Ascending.pairwise_mergeSort (fun s : State => s.id.number) (hNodup.imp ?_)
  intro s t hNe hEq
  exact hNe (Ident.number_inj.mp hEq)

/-- The index of ascending states, counted from `n` on, leads from each
identifier to its place. -/
theorem lookup_zipIdx {states : List State} (hAscends : states.Pairwise fun s t => s.id < t.id)
    (n : Nat) (id : StateId) (i : Nat) :
    ((states.zipIdx n).map fun (s, k) => (s.id, k)).lookup id = some i ↔
      n ≤ i ∧ states[i - n]?.map State.id = some id := by
  induction states generalizing n with
  | nil => simp
  | cons s rest ih =>
    obtain ⟨hHead, hTail⟩ := List.pairwise_cons.mp hAscends
    rw [List.zipIdx_cons, List.map_cons, List.lookup_cons]
    by_cases hid : id = s.id
    · -- no later state has the same identifier
      have hOnly : ∀ k, (s :: rest)[k]?.map State.id = some id ↔ k = 0 := by
        intro k
        cases k with
        | zero => simp [hid]
        | succ k =>
          simp only [List.getElem?_cons_succ, Option.map_eq_some_iff]
          constructor
          · rintro ⟨t, ht, hEq⟩
            have hLt := hHead t (List.mem_of_getElem? ht)
            rw [hEq, hid] at hLt
            exact absurd hLt Std.lt_irrefl
          · intro h
            cases h
      rw [beq_iff_eq.mpr hid, hOnly]
      simp only [Option.some.injEq]
      omega
    · rw [beq_false_of_ne hid]
      simp only [ih hTail]
      by_cases hn : n < i
      · have hSub : i - n = (i - (n + 1)) + 1 := by omega
        rw [hSub, List.getElem?_cons_succ]
        constructor
        · rintro ⟨-, h⟩
          exact ⟨by omega, h⟩
        · rintro ⟨-, h⟩
          exact ⟨hn, h⟩
      · constructor
        · rintro ⟨h, -⟩
          omega
        · rintro ⟨hLe, h⟩
          have hZero : i - n = 0 := by omega
          rw [hZero] at h
          exact absurd (Option.some.inj h).symm hid

theorem lookup_positionIndex {states : List State}
    (hAscends : states.Pairwise fun s t => s.id < t.id) (id : StateId) (i : Nat) :
    (positionIndex states).lookup id = some i ↔ states[i]?.map State.id = some id := by
  rw [positionIndex, lookup_zipIdx hAscends 0 id i]
  simp

-- ---------------------------------------------------------------------------
-- Places and transitions
-- ---------------------------------------------------------------------------

theorem filterMap_range_getElem? {α : Type} (xs : Array α) (n : Nat) :
    (List.range n).filterMap (fun k => xs[k]?) = xs.toList.take n := by
  induction n with
  | zero => simp
  | succ n ih =>
    rw [List.range_succ, List.filterMap_append, ih, List.take_add_one, Array.getElem?_toList]
    cases h : xs[n]? <;> simp [h]

/-- Going through the places of the transitions that leave a state gives these
transitions in the order of the model. -/
theorem filterMap_placesFrom (transitions : Array Transition) (id : StateId) :
    (placesFrom transitions id).filterMap (fun k => transitions[k]?) =
      transitions.toList.filter (·.source == id) := by
  have hAll : (List.range transitions.size).filterMap (fun k => transitions[k]?) =
      transitions.toList := by
    rw [filterMap_range_getElem?, ← Array.length_toList, List.take_length]
  rw [placesFrom, List.filterMap_filter, ← hAll, List.filter_filterMap]
  congr 1
  funext k
  cases transitions[k]? with
  | none => rfl
  | some t => rfl

theorem map_some_filterMap {α β : Type} {f : α → Option β} {xs : List α}
    (h : ∀ x ∈ xs, ∃ y, f x = some y) : (xs.filterMap f).map some = xs.map f := by
  induction xs with
  | nil => rfl
  | cons x rest ih =>
    obtain ⟨y, hy⟩ := h x List.mem_cons_self
    rw [List.filterMap_cons_some hy, List.map_cons, List.map_cons, hy,
      ih fun z hz => h z (List.mem_cons_of_mem x hz)]

-- ---------------------------------------------------------------------------
-- The finished model
-- ---------------------------------------------------------------------------

namespace Builder

section Finished

variable {b : Builder} {accepted : List Call}

/-- Every state of the finished model is a state of the builder with its
successors filled in. -/
theorem mem_build_states {s : State} (h : s ∈ b.build.states) :
    ∃ old ∈ b.states, s = finish b.transitions (positionIndex b.sortedStates) old := by
  obtain ⟨old, hOld, rfl⟩ := List.mem_map.mp (List.mem_toArray.mp h)
  exact ⟨old, Array.mem_toList_iff.mp (List.mem_mergeSort.mp hOld), rfl⟩

theorem Reflects.position?_build (hb : b.Reflects accepted) (id : StateId) (i : Nat) :
    b.build.position? id = some i ↔ b.build.states[i]?.map State.id = some id := by
  refine (lookup_positionIndex hb.ascending id i).trans ?_
  simp only [build, List.getElem?_toArray, List.getElem?_map, Option.map_map]
  rfl

/-- The states of the finished model are the declared ones. -/
theorem Reflects.exists_mem_states (hb : b.Reflects accepted) (id : StateId) :
    (∃ s ∈ b.build.states, s.id = id) ↔ b.Declares id := by
  have hPerm : b.sortedStates.Perm b.states.toList := List.mergeSort_perm ..
  have hMap : b.build.states.toList.map State.id = b.sortedStates.map State.id := by
    simp only [build, List.map_map]
    rfl
  have hIds : (∃ s ∈ b.build.states, s.id = id) ↔ id ∈ b.declared := by
    rw [declared, ← Array.mem_toList_iff, Array.toList_map, ← (hPerm.map State.id).mem_iff, ← hMap,
      List.mem_map]
    simp only [Array.mem_toList_iff]
  rw [hIds, Array.mem_iff_getElem?]
  exact exists_congr fun i => (hb.index id i).symm

theorem Reflects.contains_build (hb : b.Reflects accepted) (id : StateId) :
    b.build.contains id = true ↔ ∃ s ∈ b.build.states, s.id = id := by
  unfold contains
  rw [Option.isSome_iff_exists]
  simp only [hb.position?_build, Array.mem_iff_getElem?, Option.map_eq_some_iff]
  grind

/-- Looking up a state of the finished model finds it. -/
theorem Reflects.state?_build (hb : b.Reflects accepted) {s : State} (hs : s ∈ b.build.states) :
    b.build.state? s.id = some s := by
  obtain ⟨i, hi⟩ := Array.mem_iff_getElem?.mp hs
  have hPosition : b.build.position? s.id = some i :=
    (hb.position?_build s.id i).mpr (by rw [hi]; rfl)
  rw [state?, hPosition]
  exact hi

theorem Reflects.transitionsOf_build (hb : b.Reflects accepted) (id : StateId) :
    b.build.transitionsOf id = b.transitions.toList.filter (·.source == id) := by
  by_cases hContains : b.build.contains id = true
  · obtain ⟨s, hs, rfl⟩ := (hb.contains_build id).mp hContains
    obtain ⟨old, hOld, rfl⟩ := mem_build_states hs
    rw [transitionsOf, hb.state?_build hs]
    change old.outgoing.filterMap (fun k => b.transitions[k]?) = _
    rw [(hb.described old hOld).outgoing]
    exact filterMap_placesFrom b.transitions old.id
  · -- an unknown state has no transitions, and no transition leaves it
    have hNone : b.build.state? id = none := by
      rw [contains, Bool.not_eq_true, Option.isSome_eq_false_iff, Option.isNone_iff_eq_none]
        at hContains
      rw [state?, hContains]
      rfl
    rw [transitionsOf, hNone]
    symm
    rw [List.filter_eq_nil_iff]
    intro t ht hSource
    obtain ⟨hDeclared, -⟩ := hb.endpoints t (Array.mem_toList_iff.mp ht)
    rw [beq_iff_eq.mp hSource] at hDeclared
    exact hContains ((hb.contains_build id).mpr ((hb.exists_mem_states id).mpr hDeclared))

theorem Reflects.successors_build (hb : b.Reflects accepted) {s : State}
    (hs : s ∈ b.build.states) :
    s.successors.map some =
      (b.build.transitionsOf s.id).map fun t => b.build.position? t.target := by
  obtain ⟨old, hOld, rfl⟩ := mem_build_states hs
  have hSuccessors :
      (finish b.transitions (positionIndex b.sortedStates) old).successors =
        (b.build.transitionsOf old.id).filterMap fun t => b.build.position? t.target := by
    rw [hb.transitionsOf_build, ← filterMap_placesFrom, List.filterMap_filterMap,
      ← (hb.described old hOld).outgoing]
    rfl
  rw [hSuccessors]
  apply map_some_filterMap
  intro t ht
  rw [hb.transitionsOf_build, List.mem_filter] at ht
  obtain ⟨-, hTarget⟩ := hb.endpoints t (Array.mem_toList_iff.mp ht.1)
  have hContains := (hb.contains_build t.target).mpr ((hb.exists_mem_states t.target).mpr hTarget)
  exact Option.isSome_iff_exists.mp hContains

theorem Reflects.labels_build (hb : b.Reflects accepted) {id : StateId}
    (h : b.build.contains id = true) :
    ∃ labels, b.build.labelsOf? id = some labels ∧ labels.Pairwise (· < ·) ∧
      ∀ label, label ∈ labels ↔ .label id label ∈ accepted := by
  obtain ⟨s, hs, rfl⟩ := (hb.contains_build id).mp h
  obtain ⟨old, hOld, rfl⟩ := mem_build_states hs
  obtain ⟨-, hAscend, hLabels⟩ := hb.described old hOld
  refine ⟨old.labels, ?_, hAscend, hLabels⟩
  rw [labelsOf?, hb.state?_build hs]
  rfl

/-- A state of the finished model is a dead end iff no transition leaves it. -/
theorem Reflects.isDeadlock_build (hb : b.Reflects accepted) {s : State}
    (hs : s ∈ b.build.states) :
    s.isDeadlock = b.transitions.all (·.source != s.id) := by
  obtain ⟨old, hOld, rfl⟩ := mem_build_states hs
  have hOutgoing : old.outgoing = placesFrom b.transitions old.id :=
    (hb.described old hOld).outgoing
  rw [Bool.eq_iff_iff]
  change old.outgoing.isEmpty = true ↔ b.transitions.all (·.source != old.id) = true
  rw [hOutgoing, List.isEmpty_iff, placesFrom, List.filter_eq_nil_iff, Array.all_eq_true]
  constructor
  · intro h i hi
    have hNot := h i (List.mem_range.mpr hi)
    rw [Array.getElem?_eq_getElem hi] at hNot
    simpa using hNot
  · intro h i hi
    have hi : i < b.transitions.size := List.mem_range.mp hi
    rw [Array.getElem?_eq_getElem hi]
    simpa using h i hi

theorem toList_allPositions_build (b : Builder) :
    b.build.allPositions.toList = List.range b.build.size := by
  have hSize : b.build.size = b.sortedStates.length := by simp [Model.size, build]
  have hMem : ∀ i, i ∈ b.build.allPositions.toList ↔ i ∈ List.range b.build.size := by
    intro i
    rw [BitSet.mem_toList, hSize]
    simp [build]
  have hPerm : b.build.allPositions.toList.Perm (List.range b.build.size) :=
    (List.perm_ext_iff_of_nodup ((BitSet.pairwise_toList _).imp Nat.ne_of_lt)
      List.nodup_range).mpr hMem
  exact hPerm.eq_of_pairwise (fun i j _ _ hij hji => absurd hij (Nat.lt_asymm hji))
    (BitSet.pairwise_toList _) List.pairwise_lt_range

/-- A builder that reflects the accepted calls finishes as the model that they
describe. -/
theorem isBuiltFrom_build (hb : b.Reflects accepted) : b.build.IsBuiltFrom accepted := by
  have hAscends : b.build.states.toList.Pairwise fun s t => s.id < t.id :=
    hb.ascending.map _ fun s t hst => hst
  have hIds : b.build.allStates.toList = b.build.states.toList.map State.id := by
    simp only [build, List.map_map]
    exact StateSet.toList_ofList (List.pairwise_map.mpr hb.ascending)
  constructor
  case ascending => exact hAscends
  case declared =>
    intro id
    rw [hb.exists_mem_states, hb.declares_iff]
  case index => exact hb.position?_build
  case transitions => exact hb.transitions
  case distinctIds => exact hb.distinctIds
  case distinctEdges => exact hb.distinctEdges
  case endpoints =>
    intro t ht
    obtain ⟨hSource, hTarget⟩ := hb.endpoints t ht
    rw [hb.contains_build, hb.contains_build, hb.exists_mem_states, hb.exists_mem_states]
    exact ⟨hSource, hTarget⟩
  case transitionsOf => exact hb.transitionsOf_build
  case successors => exact fun s hs => hb.successors_build hs
  case labels => exact fun id h => hb.labels_build h
  case allStates => exact hIds
  case allPositions => exact toList_allPositions_build b
  case isDeadlock => exact fun s hs => hb.isDeadlock_build hs
  case deadlocks =>
    rw [hIds, List.filter_map, Model.deadlocks, toList_statesWhere hAscends]
    congr 1
    apply List.filter_congr
    intro s hs
    exact hb.isDeadlock_build (Array.mem_toList_iff.mp hs)

end Finished

end Builder

-- ---------------------------------------------------------------------------
-- Looking up states
-- ---------------------------------------------------------------------------

namespace IsBuiltFrom

variable {m : Model} {accepted : List Call} (hm : m.IsBuiltFrom accepted)
include hm

theorem position?_eq_some_iff {id : StateId} {i : Nat} :
    m.position? id = some i ↔ ∃ s, m.states[i]? = some s ∧ s.id = id := by
  rw [hm.index, Option.map_eq_some_iff]

/-- Only one state stands at a position. -/
theorem id_unique {id id' : StateId} {i : Nat} (h : m.position? id = some i)
    (h' : m.position? id' = some i) : id = id' := by
  rw [hm.index] at h h'
  exact Option.some.inj (h.symm.trans h')

/-- Only one state has an identifier. -/
theorem state_unique {s t : State} (hs : s ∈ m.states) (ht : t ∈ m.states) (hId : s.id = t.id) :
    s = t := by
  obtain ⟨i, hi⟩ := Array.mem_iff_getElem?.mp hs
  obtain ⟨j, hj⟩ := Array.mem_iff_getElem?.mp ht
  have hAt : m.position? s.id = some i := hm.position?_eq_some_iff.mpr ⟨s, hi, rfl⟩
  have hAt' : m.position? s.id = some j := hm.position?_eq_some_iff.mpr ⟨t, hj, hId.symm⟩
  rw [Option.some.inj (hAt.symm.trans hAt'), hj] at hi
  exact (Option.some.inj hi).symm

theorem position_lt {id : StateId} {i : Nat} (h : m.position? id = some i) : i < m.size := by
  obtain ⟨s, hs, -⟩ := hm.position?_eq_some_iff.mp h
  exact (Array.getElem?_eq_some_iff.mp hs).1

theorem contains_iff_exists {id : StateId} :
    m.contains id = true ↔ ∃ s ∈ m.states, s.id = id := by
  rw [contains, Option.isSome_iff_exists]
  simp only [hm.position?_eq_some_iff, Array.mem_iff_getElem?]
  grind

theorem state?_eq_some_iff {id : StateId} {s : State} :
    m.state? id = some s ↔ s ∈ m.states ∧ s.id = id := by
  simp only [state?, Option.bind_eq_some_iff, hm.position?_eq_some_iff]
  constructor
  · rintro ⟨i, ⟨t, ht, hId⟩, hs⟩
    obtain rfl : t = s := Option.some.inj (ht.symm.trans hs)
    exact ⟨Array.mem_of_getElem? hs, hId⟩
  · rintro ⟨hs, hId⟩
    obtain ⟨i, hi⟩ := Array.mem_iff_getElem?.mp hs
    exact ⟨i, ⟨s, hi, hId⟩, hi⟩

theorem labelsOf?_eq_some_iff {id : StateId} {labels : List String} :
    m.labelsOf? id = some labels ↔ ∃ s ∈ m.states, s.id = id ∧ s.labels = labels := by
  simp only [labelsOf?, Option.map_eq_some_iff, hm.state?_eq_some_iff, and_assoc]

theorem labelsOf?_id {s : State} (hs : s ∈ m.states) : m.labelsOf? s.id = some s.labels :=
  hm.labelsOf?_eq_some_iff.mpr ⟨s, hs, rfl, rfl⟩

/-- What the model says of the labels of an identifier, for a state itself. -/
theorem labels_of_mem {s : State} (hs : s ∈ m.states) :
    s.labels.Pairwise (· < ·) ∧ ∀ label, label ∈ s.labels ↔ .label s.id label ∈ accepted := by
  obtain ⟨labels, hLabels, hAscend, hMem⟩ :=
    hm.labels s.id (hm.contains_iff_exists.mpr ⟨s, hs, rfl⟩)
  obtain rfl : s.labels = labels := Option.some.inj ((hm.labelsOf?_id hs).symm.trans hLabels)
  exact ⟨hAscend, hMem⟩

end IsBuiltFrom

/-- The model is what a builder makes of some calls, with refused ones passed
over. -/
def IsBuilt (m : Model) : Prop :=
  ∃ calls, m = (Builder.attemptAll {} calls).1.build

theorem IsBuilt.exists_isBuiltFrom {m : Model} (hm : m.IsBuilt) :
    ∃ accepted, m.IsBuiltFrom accepted := by
  obtain ⟨calls, rfl⟩ := hm
  exact ⟨_, Builder.isBuiltFrom_build (Builder.reflects_attemptAll Builder.reflects_empty calls)⟩

/-- **What a run of a builder makes.** Whatever is called in whatever order, the
calls that fit those before them are accepted, the others are passed over, and
the finished model is the one that the accepted calls describe. -/
theorem build_attemptAll (calls : List Call) :
    Builder.Selects [] calls (Builder.acceptedCalls {} calls) ∧
      (Builder.attemptAll {} calls).1.build.IsBuiltFrom (Builder.acceptedCalls {} calls) := by
  have hEmpty := Builder.reflects_empty
  exact ⟨Builder.selects_attemptAll hEmpty calls,
    Builder.isBuiltFrom_build (Builder.reflects_attemptAll hEmpty calls)⟩

end BranchingTime.Model
