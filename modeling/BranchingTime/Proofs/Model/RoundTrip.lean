import BranchingTime.Proofs.Model.Printing

/-!
# BranchingTime — reading printed models

The text of a model says calls that are all accepted, and what they describe has
the parts of the model: only the order of the transitions is that of the text.
The text depends on these parts alone, so the model that is read has the same
text again.

## Results

* `sameParts_of_accepted` — calls that say the same describe the same parts.
* `SameParts.render_eq` — models with the same parts have the same text.
* `fitAll_calls` — the calls of a model are all accepted.
* `parse_render_model` — a model's text is read back.
-/

namespace BranchingTime.Model

open Builder (Call FitAll)

/-- Two models have the same states, the same labels on each of them and the same
transitions, in whatever order. -/
structure SameParts (m n : Model) : Prop where
  states : m.states.toList.map State.id = n.states.toList.map State.id
  labels : ∀ id, m.labelsOf? id = n.labelsOf? id
  transitions : m.transitions.toList.Perm n.transitions.toList

-- ---------------------------------------------------------------------------
-- Parts and texts
-- ---------------------------------------------------------------------------

section Built

variable {m : Model} {accepted : List Call} (hm : m.IsBuiltFrom accepted)
include hm

theorem pairwise_sortedTransitions : m.sortedTransitions.Pairwise fun t u => t.id < u.id :=
  Ascending.pairwise_mergeSort (fun t : Transition => t.id.number) <|
    hm.distinctIds.imp fun hNe hEq => hNe (Ident.number_inj.mp hEq)

/-- A line of labels is told by what the model says of the state. -/
theorem map_labelLine :
    m.states.toList.map labelLine = (m.states.toList.map State.id).map fun id =>
      id.name ++ " : " ++ String.intercalate " " ((m.labelsOf? id).getD []) := by
  rw [List.map_map]
  refine List.map_congr_left fun s hs => ?_
  rw [Function.comp_apply, hm.labelsOf?_id (Array.mem_toList_iff.mp hs)]
  rfl

end Built

/-- Calls that declare the same states, put the same labels on them and add the
same transitions describe models with the same parts. -/
theorem sameParts_of_accepted {m n : Model} {accepted others : List Call}
    (hm : m.IsBuiltFrom accepted) (hn : n.IsBuiltFrom others)
    (hStates : ∀ id, .state id ∈ accepted ↔ .state id ∈ others)
    (hLabels : ∀ id label, .state id ∈ accepted →
      (.label id label ∈ accepted ↔ .label id label ∈ others))
    (hTransitions :
      (accepted.filterMap Call.transition?).Perm (others.filterMap Call.transition?)) :
    SameParts m n := by
  have hDeclared (id : StateId) : (∃ s ∈ m.states, s.id = id) ↔ ∃ s ∈ n.states, s.id = id := by
    rw [hm.declared, hn.declared, hStates]
  constructor
  case states =>
    refine Ascending.eq_of_mem_iff (List.pairwise_map.mpr hm.ascending)
      (List.pairwise_map.mpr hn.ascending) fun id => ?_
    simp only [List.mem_map, Array.mem_toList_iff]
    exact hDeclared id
  case labels =>
    intro id
    by_cases hHere : ∃ s ∈ m.states, s.id = id
    · obtain ⟨t, ht, hId⟩ := (hDeclared id).mp hHere
      have hGiven := fun label => hLabels id label ((hm.declared id).mp hHere)
      obtain ⟨s, hs, rfl⟩ := hHere
      rw [hm.labelsOf?_id hs, ← hId, hn.labelsOf?_id ht, Option.some.injEq]
      refine Ascending.eq_of_mem_iff (hm.labels_of_mem hs).1 (hn.labels_of_mem ht).1 fun label => ?_
      rw [(hm.labels_of_mem hs).2, (hn.labels_of_mem ht).2, hId, hGiven]
    · have hMissing (k : Model) {calls : List Call} (hk : k.IsBuiltFrom calls)
          (hNone : ¬ ∃ s ∈ k.states, s.id = id) : k.labelsOf? id = none := by
        rw [Option.eq_none_iff_forall_ne_some]
        intro labels hLabels
        obtain ⟨s, hs, hId, -⟩ := hk.labelsOf?_eq_some_iff.mp hLabels
        exact hNone ⟨s, hs, hId⟩
      rw [hMissing m hm hHere, hMissing n hn (mt (hDeclared id).mpr hHere)]
  case transitions =>
    rwa [hm.transitions, hn.transitions]

/-- Models with the same parts have the same text. -/
theorem SameParts.render_eq {m n : Model} {accepted others : List Call}
    (hm : m.IsBuiltFrom accepted) (hn : n.IsBuiltFrom others) (h : SameParts m n) :
    m.render = n.render := by
  have hPerm : m.sortedTransitions.Perm n.sortedTransitions :=
    (List.mergeSort_perm ..).trans (h.transitions.trans (List.mergeSort_perm ..).symm)
  have hTransitions : m.sortedTransitions = n.sortedTransitions :=
    hPerm.eq_of_pairwise
      (fun t u _ _ htu hut => absurd htu (UInt32.lt_asymm hut))
      (pairwise_sortedTransitions hm) (pairwise_sortedTransitions hn)
  have hNames : m.states.toList.map (·.id.name) = n.states.toList.map (·.id.name) := by
    have hMap := congrArg (List.map Ident.name) h.states
    rwa [List.map_map, List.map_map] at hMap
  have hLabels : m.states.toList.map labelLine = n.states.toList.map labelLine := by
    rw [map_labelLine hm, map_labelLine hn, h.states]
    simp only [h.labels]
  rw [render, render, renderLines, renderLines, hNames, hTransitions, hLabels]

-- ---------------------------------------------------------------------------
-- The calls of a model
-- ---------------------------------------------------------------------------

section Calls

variable {m : Model}

theorem state_mem_calls {id : StateId} : .state id ∈ m.calls ↔ ∃ s ∈ m.states, s.id = id := by
  simp [calls, labelCalls]

theorem label_mem_calls {id : StateId} {label : String} :
    .label id label ∈ m.calls ↔ ∃ s ∈ m.states, s.id = id ∧ label ∈ s.labels := by
  simp only [calls, labelCalls, List.mem_append, List.mem_map, List.mem_flatMap,
    Array.mem_toList_iff, Call.label.injEq]
  grind

theorem filterMap_transition?_calls : m.calls.filterMap Call.transition? = m.sortedTransitions := by
  have hLabels : (m.states.toList.flatMap labelCalls).filterMap Call.transition? = [] := by
    rw [List.filterMap_eq_nil_iff]
    intro c hc
    obtain ⟨s, -, hc⟩ := List.mem_flatMap.mp hc
    obtain ⟨label, -, rfl⟩ := List.mem_map.mp hc
    rfl
  rw [calls, List.filterMap_append, List.filterMap_append, Builder.filterMap_transition?_states,
    Builder.filterMap_transition?_transitions, hLabels, List.nil_append, List.append_nil]

theorem mem_sortedTransitions {t : Transition} : t ∈ m.sortedTransitions ↔ t ∈ m.transitions :=
  (List.mergeSort_perm ..).mem_iff.trans Array.mem_toList_iff

variable {accepted : List Call} (hm : m.IsBuiltFrom accepted)
include hm

/-- No two transitions and no two labels of a built model clash. -/
theorem pairwise_clashes_calls :
    (m.sortedTransitions.map Call.transition ++ m.states.toList.flatMap labelCalls).Pairwise
      fun c d => ¬ c.Clashes d := by
  rw [List.pairwise_append]
  refine ⟨?_, ?_, ?_⟩
  · have hDistinct := hm.distinctIds.and hm.distinctEdges
    have hSorted := (List.mergeSort_perm m.transitions.toList
      fun t u => t.id.number ≤ u.id.number).symm.pairwise hDistinct
        fun h => ⟨h.1.symm, h.2.symm⟩
    rw [List.pairwise_map]
    exact hSorted.imp fun h => not_or.mpr h
  · rw [List.pairwise_flatMap]
    constructor
    · intro s hs
      have hAscend := (hm.labels_of_mem (Array.mem_toList_iff.mp hs)).1
      rw [labelCalls, List.pairwise_map]
      refine hAscend.imp ?_
      intro label label' hLt hClash
      exact Std.ne_of_lt hLt hClash.2
    · refine hm.ascending.imp ?_
      intro s t hLt c hc d hd hClash
      obtain ⟨label, -, rfl⟩ := List.mem_map.mp hc
      obtain ⟨label', -, rfl⟩ := List.mem_map.mp hd
      exact Std.ne_of_lt hLt hClash.1
  · intro c hc d hd hClash
    obtain ⟨t, -, rfl⟩ := List.mem_map.mp hc
    obtain ⟨s, -, hd⟩ := List.mem_flatMap.mp hd
    obtain ⟨label, -, rfl⟩ := List.mem_map.mp hd
    exact hClash

/-- The calls of a built model are all accepted. -/
theorem fitAll_calls : FitAll [] m.calls := by
  have hIds {id : StateId} (h : m.contains id = true) : id ∈ m.states.toList.map State.id := by
    obtain ⟨s, hs, rfl⟩ := hm.contains_iff_exists.mp h
    exact List.mem_map_of_mem (Array.mem_toList_iff.mpr hs)
  rw [calls, Builder.fitAll_states_append_iff (by simp [labelCalls])]
  refine ⟨?_, ?_, pairwise_clashes_calls hm⟩
  · rw [List.nodup_iff_pairwise_ne, List.pairwise_map]
    exact hm.ascending.imp fun hLt => Std.ne_of_lt hLt
  · intro c hc id hNeeds
    rcases List.mem_append.mp hc with hc | hc
    · obtain ⟨t, ht, rfl⟩ := List.mem_map.mp hc
      obtain ⟨hSource, hTarget⟩ := hm.endpoints t (mem_sortedTransitions.mp ht)
      rcases List.mem_cons.mp hNeeds with rfl | hNeeds
      · exact hIds hSource
      · rw [List.mem_singleton.mp hNeeds]
        exact hIds hTarget
    · obtain ⟨s, hs, hc⟩ := List.mem_flatMap.mp hc
      obtain ⟨label, -, rfl⟩ := List.mem_map.mp hc
      rw [List.mem_singleton.mp hNeeds]
      exact List.mem_map_of_mem hs

/-- What the calls of a built model describe has its parts. -/
theorem sameParts_of_calls {n : Model} (hn : n.IsBuiltFrom m.calls) : SameParts m n := by
  refine sameParts_of_accepted hm hn ?_ ?_ ?_
  · intro id
    rw [← hm.declared, state_mem_calls]
  · intro id label hId
    obtain ⟨s, hs, rfl⟩ := (hm.declared id).mpr hId
    rw [← (hm.labels_of_mem hs).2, label_mem_calls]
    constructor
    · intro hLabel
      exact ⟨s, hs, rfl, hLabel⟩
    · rintro ⟨other, hOther, hSame, hLabel⟩
      rwa [hm.state_unique hOther hs hSame] at hLabel
  · rw [← hm.transitions, filterMap_transition?_calls]
    exact (List.mergeSort_perm ..).symm

end Calls

-- ---------------------------------------------------------------------------
-- The round trip
-- ---------------------------------------------------------------------------

/-- **Model texts are read back.** A model that is read from a text has words of
letters as labels. The text of any built model with such labels is read as a
model with the same states, labels and transitions, where states and transitions
stand in the order of their identifiers, and with the same text. -/
theorem parse_render_model :
    (∀ text m, parse text = .ok m → m.IsBuilt ∧ m.HasLabelNames) ∧
    ∀ m : Model, m.IsBuilt → m.HasLabelNames →
      ∃ read, parse m.render = .ok read ∧ SameParts m read ∧
        (read.states.toList.Pairwise fun s t => s.id < t.id) ∧
        (read.transitions.toList.Pairwise fun t u => t.id < u.id) ∧ read.render = m.render := by
  constructor
  · intro text m h
    exact ⟨isBuilt_of_parse h, hasLabelNames_of_parse h⟩
  · intro m hBuilt hLabels
    obtain ⟨accepted, hm⟩ := hBuilt.exists_isBuiltFrom
    obtain ⟨b, hCalls⟩ := (Builder.fitAll_iff Builder.reflects_empty).mp (fitAll_calls hm)
    have hRead := isBuiltFrom_of_callAll hCalls
    have hSame := sameParts_of_calls hm hRead
    refine ⟨b.build, parse_eq_ok_iff.mpr ⟨m.calls, b, textSays_render hLabels, hCalls, rfl⟩,
      hSame, hRead.ascending, ?_, (hSame.render_eq hm hRead).symm⟩
    rw [hRead.transitions, filterMap_transition?_calls]
    exact pairwise_sortedTransitions hm

/-- A model with transitions `t5` and `t3`, in this order, is read back with `t3`
first; the text `;` is that of a model without states. -/
theorem parse_render_reordered :
    let t3 : Transition := ⟨⟨3⟩, ⟨2⟩, ⟨2⟩⟩
    let t5 : Transition := ⟨⟨5⟩, ⟨1⟩, ⟨2⟩⟩
    let calls : List Call := [.state ⟨1⟩, .state ⟨2⟩, .transition t5, .transition t3,
      .label ⟨2⟩ "q", .label ⟨2⟩ "p"]
    let m := (Builder.attemptAll {} calls).1.build
    let empty := (Builder.attemptAll {} []).1.build
    m.IsBuilt ∧ m.HasLabelNames ∧ empty.IsBuilt ∧ empty.HasLabelNames ∧
    (∃ read, parse m.render = .ok read ∧ m.labelsOf? ⟨2⟩ = read.labelsOf? ⟨2⟩ ∧
      read.transitions.toList = [t3, t5] ∧ read.render = m.render) ∧
    ∃ read, parse ";\n" = .ok read ∧ read.render = ";\n" := by
  intro t3 t5 calls m empty
  have hm : m.IsBuilt := ⟨calls, rfl⟩
  have hEmpty : empty.IsBuilt := ⟨[], rfl⟩
  have hSorted : (Builder.attemptAll {} calls).1.sortedStates =
      [{ id := ⟨1⟩, outgoing := [0] }, { id := ⟨2⟩, outgoing := [1], labels := ["p", "q"] }] :=
    List.mergeSort_of_pairwise (by decide +kernel)
  have hLabels : m.HasLabelNames := by
    simp only [m, HasLabelNames, Builder.build, hSorted]
    decide +kernel
  have hNone : empty.HasLabelNames := by
    intro s hs
    simp [empty, Builder.attemptAll, Builder.build, Builder.sortedStates] at hs
  have hText : empty.render = ";\n" := by
    simp [empty, Builder.attemptAll, Builder.build, Builder.sortedStates, render, renderLines,
      sortedTransitions, terminated]
  have hTransitions : m.transitions.toList = [t5, t3] := by
    decide +kernel
  obtain ⟨read, hRead, hSame, -, hAscend, hRender⟩ := parse_render_model.2 m hm hLabels
  obtain ⟨other, hOther, -, -, -, hOtherRender⟩ := parse_render_model.2 empty hEmpty hNone
  rw [hText] at hOther hOtherRender
  have hSwapped : read.transitions.toList.Perm [t3, t5] := by
    refine hSame.transitions.symm.trans ?_
    rw [hTransitions]
    exact List.Perm.swap t3 t5 []
  have hOrder : read.transitions.toList = [t3, t5] :=
    hSwapped.eq_of_pairwise (fun t u _ _ htu hut => absurd htu (UInt32.lt_asymm hut)) hAscend
      (by decide)
  exact ⟨hm, hLabels, hEmpty, hNone, ⟨read, hRead, hSame.labels ⟨2⟩, hOrder, hRender⟩, other,
    hOther, hOtherRender⟩

end BranchingTime.Model
