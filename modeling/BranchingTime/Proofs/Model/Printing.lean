import BranchingTime.Model.Print
import BranchingTime.Proofs.Model.Reading

/-!
# BranchingTime — what a printed model says

The text of a model says the calls that add its states, its transitions in the
order of their identifiers, and the labels of its states. This needs labels that
a line can hold: words of letters. Every printed line ends with a comma or a
semicolon and starts with a name, the first one of a model without states
excepted, so that trimming changes none of them.

## Results

* `says_transitionLine`, `says_labelLine`, `listsStates_stateLine` — the lines.
* `textSays_render` — the whole text.
-/

namespace BranchingTime.Model

open Text (trim trimRight splitBy isBlank isBlank_nothing IsWord IsTrimmed)
open Builder (Call)

/-- The line that lists states, without its end. -/
def stateLine (ids : List StateId) : String :=
  String.intercalate ", " (ids.map Ident.name)

/-- The calls that add the labels of a state. -/
def labelCalls (s : State) : List Call :=
  s.labels.map (.label s.id)

/-- The calls that add all that a model has, in the order of its text. -/
def calls (m : Model) : List Call :=
  (m.states.toList.map State.id).map .state ++
    (m.sortedTransitions.map .transition ++ m.states.toList.flatMap labelCalls)

-- ---------------------------------------------------------------------------
-- Names and labels in lines
-- ---------------------------------------------------------------------------

theorem isBlank_space : ∀ c ∈ [' '], isBlank c = true := by
  intro c hc
  rw [List.mem_singleton.mp hc]
  rfl

theorem named?_padded {left right : List Char} (hLeft : ∀ c ∈ left, isBlank c = true)
    (hRight : ∀ c ∈ right, isBlank c = true) {letter : Char} (id : Ident letter)
    (hLetter : letter.isAlpha = true := by decide) :
    named? letter (left ++ id.name.toList ++ right) = some id := by
  rw [named?, Text.trim_padded hLeft hRight (id.isWord_name hLetter).isTrimmed,
    String.ofList_toList, Ident.ofName?_name]

/-- Names with a comma and a blank between them. -/
theorem map_named?_intercalate {left : List Char} (hLeft : ∀ c ∈ left, isBlank c = true)
    (hComma : ',' ∉ left) (id : StateId) (ids : List StateId) :
    (splitBy (· == ',') (left ++ [',', ' '].intercalate
      ((id :: ids).map fun id => id.name.toList))).map (named? 's') = (id :: ids).map some := by
  have hPiece (left : List Char) (hComma : ',' ∉ left) (id : StateId) :
      ∀ c ∈ left ++ id.name.toList, (c == ',') = false := by
    intro c hc
    have hName : ',' ∉ id.name.toList := id.isWord_name.notMem rfl
    refine beq_false_of_ne fun hEq => ?_
    rw [hEq, List.mem_append] at hc
    exact hc.elim hComma hName
  have hNamed (left : List Char) (hLeft : ∀ c ∈ left, isBlank c = true) (id : StateId) :
      named? 's' (left ++ id.name.toList) = some id := by
    have hPadded := named?_padded hLeft isBlank_nothing id
    rwa [List.append_nil] at hPadded
  simp only [Text.splitBy_eq_splitOnP]
  induction ids generalizing left id with
  | nil =>
    rw [List.map_singleton, List.intercalate_singleton,
      List.splitOnP_eq_singleton (hPiece left hComma id), List.map_singleton, hNamed left hLeft]
    rfl
  | cons next rest ih =>
    have hRest := ih isBlank_space (by decide) next
    have hText : left ++ [',', ' '].intercalate
        ((id :: next :: rest).map fun id => id.name.toList) =
        (left ++ id.name.toList) ++ ',' :: ([' '] ++ [',', ' '].intercalate
          ((next :: rest).map fun id => id.name.toList)) := by
      simp [List.intercalate_cons_cons]
    rw [hText, List.splitOnP_append_cons_of_forall_mem (hPiece left hComma id) _ rfl,
      List.map_cons, hNamed left hLeft, hRest]
    rfl

/-- Words with a blank between them. -/
theorem labelWords_intercalate {words : List (List Char)} (h : ∀ word ∈ words, IsWord word) :
    labelWords ([' '].intercalate words) = words := by
  unfold labelWords
  rw [Text.splitBy_eq_splitOnP]
  induction words with
  | nil => rfl
  | cons word rest ih =>
    obtain ⟨hWord, hRest⟩ := List.forall_mem_cons.mp h
    have hPiece : ∀ c ∈ word, isLabelSeparator c = false := by
      intro c hc
      rw [Bool.eq_false_iff]
      intro hIs
      simp only [isLabelSeparator, Bool.or_eq_true, beq_iff_eq] at hIs
      rcases hIs with (rfl | rfl) | rfl
      · exact hWord.notMem rfl hc
      · exact hWord.notMem rfl hc
      · exact hWord.notMem rfl hc
    have hKeep : (!word.isEmpty) = true := by
      rw [Bool.not_eq_true', Bool.eq_false_iff]
      exact mt List.isEmpty_iff.mp hWord.filled
    cases rest with
    | nil =>
      rw [List.intercalate_singleton, List.splitOnP_eq_singleton hPiece, List.filter_cons,
        if_pos hKeep, List.filter_nil]
    | cons next rest =>
      rw [List.intercalate_cons_cons, List.append_assoc, List.singleton_append,
        List.splitOnP_append_cons_of_forall_mem hPiece _ rfl, List.filter_cons, if_pos hKeep,
        ih hRest]

theorem labelWords_blank_cons (cs : List Char) : labelWords (' ' :: cs) = labelWords cs := by
  unfold labelWords
  rw [Text.splitBy_eq_splitOnP, Text.splitBy_eq_splitOnP, List.splitOnP_cons_eq_if_modifyHead]
  rfl

/-- The words behind a colon and a blank, at the end of a trimmed line. Without
words the blank is gone. -/
theorem labelWords_trimRight {words : List (List Char)} (h : ∀ word ∈ words, IsWord word) :
    labelWords (trimRight ([' '] ++ [' '].intercalate words)) = words := by
  cases words with
  | nil => rfl
  | cons word rest =>
    have hFilled := Text.intercalate_ne_nil [' '] (h word List.mem_cons_self).filled rest
    rw [Text.trimRight_append_of_isTrimmed hFilled (Text.isTrimmed_intercalate h)]
    exact (labelWords_blank_cons _).trans (labelWords_intercalate h)

-- ---------------------------------------------------------------------------
-- Lines
-- ---------------------------------------------------------------------------

/-- The line is `body` with a comma or a semicolon at its end. -/
def EndsLine (line body : String) : Prop :=
  line = body ++ "," ∨ line = body ++ ";"

theorem EndsLine.toList_eq {line body : String} (h : EndsLine line body) :
    ∃ mark, (mark = ',' ∨ mark = ';') ∧ line.toList = body.toList ++ [mark] := by
  rcases h with rfl | rfl
  · exact ⟨',', .inl rfl, String.toList_append⟩
  · exact ⟨';', .inr rfl, String.toList_append⟩

theorem EndsLine.dropTerminator_eq {line body : String} (h : EndsLine line body) :
    dropTerminator line.toList = trimRight body.toList := by
  obtain ⟨mark, hMark, hLine⟩ := h.toList_eq
  unfold dropTerminator
  rw [hLine, List.getLast?_concat, List.dropLast_concat]
  rcases hMark with rfl | rfl <;> rfl

theorem says_transitionLine (t : Transition) :
    Says .transition (trimRight (transitionLine t).toList) [.transition t] := by
  have hLine : (transitionLine t).toList = ([] ++ t.id.name.toList ++ [' ']) ++
      ':' :: (([' '] ++ t.source.name.toList ++ [' ']) ++
        '-' :: ([' '] ++ t.target.name.toList ++ [])) := by
    simp [transitionLine]
  have hEnd := Text.trimRight_append_of_isTrimmed t.target.isWord_name.filled
    t.target.isWord_name.isTrimmed [' ']
  rw [← List.append_nil (_ ++ _)] at hEnd
  rw [hLine, Text.trimRight_append_cons (by decide), Text.trimRight_append_cons (by decide), hEnd]
  exact .transition (named?_padded isBlank_nothing isBlank_space t.id) (by decide)
    (named?_padded isBlank_space isBlank_space t.source)
    (named?_padded isBlank_space isBlank_nothing t.target)

theorem says_labelLine {s : State} (hLabels : ∀ label ∈ s.labels, IsLabelName label) :
    Says .labels (trimRight (labelLine s).toList) (labelCalls s) := by
  have hWords : ∀ word ∈ s.labels.map String.toList, IsWord word := by
    intro word hWord
    obtain ⟨label, hLabel, rfl⟩ := List.mem_map.mp hWord
    exact (hLabels label hLabel).isWord
  have hLine : (labelLine s).toList = ([] ++ s.id.name.toList ++ [' ']) ++
      ':' :: ([' '] ++ [' '].intercalate (s.labels.map String.toList)) := by
    simp [labelLine]
  have hRead := labelWords_trimRight hWords
  have hCalls : labelCalls s = (labelWords (trimRight ([' '] ++
      [' '].intercalate (s.labels.map String.toList)))).map
        fun word => .label s.id (String.ofList word) := by
    rw [hRead, List.map_map]
    exact List.map_congr_left fun label _ => by rw [Function.comp_apply, String.ofList_toList]
  rw [hLine, Text.trimRight_append_cons (by decide), hCalls]
  refine .labels (named?_padded isBlank_nothing isBlank_space s.id) ?_
  rw [hRead]
  intro word hWord
  obtain ⟨label, hLabel, rfl⟩ := List.mem_map.mp hWord
  exact (hLabels label hLabel).2

theorem toList_stateLine (ids : List StateId) :
    (stateLine ids).toList = [',', ' '].intercalate (ids.map fun id => id.name.toList) := by
  rw [stateLine, String.toList_intercalate, List.map_map]
  rfl

theorem listsStates_stateLine (ids : List StateId) :
    ListsStates (trimRight (stateLine ids).toList) ids := by
  have hWords : ∀ word ∈ ids.map fun id => id.name.toList, IsWord word := by
    intro word hWord
    obtain ⟨id, -, rfl⟩ := List.mem_map.mp hWord
    exact id.isWord_name
  rw [toList_stateLine, Text.trimRight_eq_self (Text.isTrimmed_intercalate hWords).last]
  unfold ListsStates
  cases ids with
  | nil => rfl
  | cons id rest =>
    have hFilled := Text.intercalate_ne_nil [',', ' '] id.isWord_name.filled
      (rest.map fun id => id.name.toList)
    rw [List.map_cons, if_neg hFilled]
    exact map_named?_intercalate isBlank_nothing List.not_mem_nil id rest

-- ---------------------------------------------------------------------------
-- Parts
-- ---------------------------------------------------------------------------

theorem SayAll.append {texts more : List (List Char)} {kinds moreKinds : List ModelLine}
    {calls others : List Call} (h : SayAll texts kinds calls)
    (hMore : SayAll more moreKinds others) :
    SayAll (texts ++ more) (kinds ++ moreKinds) (calls ++ others) := by
  induction h with
  | nil => exact hMore
  | cons hSays _ ih =>
    rw [List.append_assoc]
    exact .cons hSays ih

/-- One part of a text, a line for each of `xs`. -/
theorem sayAll_terminated {α : Type} {kind : ModelLine} {line : α → String} {said : α → List Call}
    {xs : List α} (h : ∀ x ∈ xs, Says kind (trimRight (line x).toList) (said x)) :
    SayAll ((terminated (xs.map line)).map String.toList) (xs.map fun _ => kind)
      (xs.flatMap said) := by
  have hLine {x : α} {text : String} (hEnds : EndsLine text (line x))
      (hSays : Says kind (trimRight (line x).toList) (said x)) :
      Says kind (dropTerminator text.toList) (said x) := by
    rw [hEnds.dropTerminator_eq]
    exact hSays
  induction xs with
  | nil => exact .nil
  | cons x rest ih =>
    obtain ⟨hHere, hRest⟩ := List.forall_mem_cons.mp h
    cases rest with
    | nil => exact .cons (hLine (.inr rfl) hHere) .nil
    | cons next rest => exact .cons (hLine (.inl rfl) hHere) (ih hRest)

-- ---------------------------------------------------------------------------
-- The text
-- ---------------------------------------------------------------------------

/-- May this stand before the end of a printed line? It starts with a name, or is
empty. -/
def IsBody (body : String) : Prop :=
  (∀ c, body.toList.head? = some c → c.isAlphanum = true) ∧ '\n' ∉ body.toList

theorem mem_terminated {bodies : List String} {line : String} (h : line ∈ terminated bodies) :
    ∃ body ∈ bodies, EndsLine line body := by
  fun_induction terminated bodies with
  | case1 => cases h
  | case2 body => exact ⟨body, List.mem_cons_self, .inr (List.mem_singleton.mp h)⟩
  | case3 body rest _ ih =>
    rcases List.mem_cons.mp h with rfl | h
    · exact ⟨body, List.mem_cons_self, .inl rfl⟩
    · obtain ⟨other, hOther, hLine⟩ := ih h
      exact ⟨other, List.mem_cons_of_mem body hOther, hLine⟩

/-- A printed line is one line, and trimming leaves it as it is. -/
theorem IsBody.printedLine {line body : String} (h : IsBody body) (hEnds : EndsLine line body) :
    line.toList ≠ [] ∧ '\n' ∉ line.toList ∧ IsTrimmed line.toList := by
  obtain ⟨mark, hMark, hLine⟩ := hEnds.toList_eq
  have hFilled : isBlank mark = false ∧ '\n' ≠ mark := by
    rcases hMark with rfl | rfl <;> decide
  rw [hLine]
  refine ⟨List.concat_ne_nil mark body.toList, ?_, ?_, ?_⟩
  · rw [List.mem_append, not_or]
    exact ⟨h.2, fun hMem => hFilled.2 (List.mem_singleton.mp hMem)⟩
  · intro c hc
    cases hBody : body.toList with
    | nil =>
      rw [hBody] at hc
      exact Option.some.inj hc ▸ hFilled.1
    | cons d rest =>
      rw [hBody] at hc
      refine Text.isBlank_of_isAlphanum (h.1 c ?_)
      rw [hBody]
      exact hc
  · intro c hc
    rw [List.getLast?_concat] at hc
    exact Option.some.inj hc ▸ hFilled.1

/-- What starts with a name is a body, if it has no line feed. -/
theorem isBody_of_name {body : String} {name rest : List Char} (hName : IsWord name)
    (h : body.toList = name ++ rest) (hNot : '\n' ∉ body.toList) : IsBody body := by
  refine ⟨?_, hNot⟩
  intro c hc
  obtain ⟨d, others, rfl⟩ := List.exists_cons_of_ne_nil hName.filled
  rw [h] at hc
  exact hName.isAlphanum c (Option.some.inj hc ▸ List.mem_cons_self)

theorem isBody_stateLine (ids : List StateId) : IsBody (stateLine ids) := by
  have hNot : '\n' ∉ (stateLine ids).toList := by
    rw [toList_stateLine]
    refine Text.notMem_intercalate (by decide) fun word hWord => ?_
    obtain ⟨id, -, rfl⟩ := List.mem_map.mp hWord
    exact id.isWord_name.notMem rfl
  cases ids with
  | nil => exact ⟨fun _ hc => (nomatch hc), hNot⟩
  | cons id rest =>
    obtain ⟨others, hOthers⟩ := Text.exists_intercalate_cons [',', ' '] id.name.toList
      (rest.map fun id => id.name.toList)
    exact isBody_of_name id.isWord_name ((toList_stateLine _).trans hOthers) hNot

theorem isBody_transitionLine (t : Transition) : IsBody (transitionLine t) := by
  have hText : (transitionLine t).toList = t.id.name.toList ++ ([' ', ':', ' '] ++
      t.source.name.toList ++ [' ', '-', ' '] ++ t.target.name.toList) := by
    simp [transitionLine]
  have hId : '\n' ∉ t.id.name.toList := t.id.isWord_name.notMem rfl
  have hSource : '\n' ∉ t.source.name.toList := t.source.isWord_name.notMem rfl
  have hTarget : '\n' ∉ t.target.name.toList := t.target.isWord_name.notMem rfl
  refine isBody_of_name t.id.isWord_name hText ?_
  rw [hText]
  simp [hId, hSource, hTarget]

theorem isBody_labelLine {s : State} (hLabels : ∀ label ∈ s.labels, IsLabelName label) :
    IsBody (labelLine s) := by
  have hText : (labelLine s).toList = s.id.name.toList ++ ([' ', ':', ' '] ++
      [' '].intercalate (s.labels.map String.toList)) := by
    simp [labelLine]
  have hId : '\n' ∉ s.id.name.toList := s.id.isWord_name.notMem rfl
  have hWords : '\n' ∉ [' '].intercalate (s.labels.map String.toList) := by
    refine Text.notMem_intercalate (by decide) fun word hWord => ?_
    obtain ⟨label, hLabel, rfl⟩ := List.mem_map.mp hWord
    exact (hLabels label hLabel).isWord.notMem rfl
  refine isBody_of_name s.id.isWord_name hText ?_
  rw [hText]
  simp [hId, hWords]

theorem renderLines_eq (m : Model) :
    m.renderLines = (stateLine (m.states.toList.map State.id) ++ ";") ::
      (terminated (m.sortedTransitions.map transitionLine) ++
        terminated (m.states.toList.map labelLine)) := by
  rw [stateLine, List.map_map]
  rfl

section Render

variable {m : Model} (hLabels : m.HasLabelNames)
include hLabels

theorem exists_body_of_mem_renderLines {line : String} (h : line ∈ m.renderLines) :
    ∃ body, IsBody body ∧ EndsLine line body := by
  rw [renderLines_eq, List.mem_cons, List.mem_append] at h
  rcases h with rfl | h | h
  · exact ⟨_, isBody_stateLine _, .inr rfl⟩
  · obtain ⟨body, hBody, hEnds⟩ := mem_terminated h
    obtain ⟨t, -, rfl⟩ := List.mem_map.mp hBody
    exact ⟨_, isBody_transitionLine t, hEnds⟩
  · obtain ⟨body, hBody, hEnds⟩ := mem_terminated h
    obtain ⟨s, hs, rfl⟩ := List.mem_map.mp hBody
    exact ⟨_, isBody_labelLine (hLabels s (Array.mem_toList_iff.mp hs)), hEnds⟩

/-- The lines of the text are the printed ones. -/
theorem map_text_filledLines_render :
    (Text.filledLines m.render.toList).map Text.Line.text = m.renderLines.map String.toList := by
  have hText : m.render.toList = (m.renderLines.map String.toList).flatMap (· ++ ['\n']) := by
    rw [render, String.toList_join, List.flatMap_map, List.flatMap_map]
    simp only [String.toList_append]
    rfl
  have hPrinted : ∀ line ∈ m.renderLines.map String.toList,
      line ≠ [] ∧ '\n' ∉ line ∧ IsTrimmed line := by
    intro line hLine
    obtain ⟨text, hMem, rfl⟩ := List.mem_map.mp hLine
    obtain ⟨body, hBody, hEnds⟩ := exists_body_of_mem_renderLines hLabels hMem
    exact hBody.printedLine hEnds
  have hTrim : (m.renderLines.map String.toList).map trim = m.renderLines.map String.toList := by
    calc (m.renderLines.map String.toList).map trim
        = (m.renderLines.map String.toList).map id :=
          List.map_congr_left fun line hLine => (hPrinted line hLine).2.2.trim_eq
      _ = m.renderLines.map String.toList := List.map_id _
  rw [Text.map_text_filledLines, hText,
    Text.physicalLines_ended fun line hLine => (hPrinted line hLine).2.1, hTrim,
    List.filter_eq_self]
  intro line hLine
  rw [Bool.not_eq_true', Bool.eq_false_iff]
  exact mt List.isEmpty_iff.mp (hPrinted line hLine).1

theorem dropByteOrderMark_render : Text.dropByteOrderMark m.render.toList = m.render.toList := by
  obtain ⟨first, rest, hLines⟩ : ∃ first rest, m.renderLines = first :: rest := ⟨_, _, rfl⟩
  obtain ⟨body, hBody, hEnds⟩ :=
    exists_body_of_mem_renderLines hLabels (hLines ▸ List.mem_cons_self)
  obtain ⟨mark, hMark, hFirst⟩ := hEnds.toList_eq
  have hText : m.render.toList =
      body.toList ++ mark :: '\n' :: (String.join (rest.map (· ++ "\n"))).toList := by
    rw [render, hLines, List.map_cons, String.join_cons, String.toList_append, String.toList_append,
      hFirst]
    simp
  apply Text.dropByteOrderMark_eq_self
  rw [hText, List.head?_append]
  cases hHead : body.toList.head? with
  | none => rcases hMark with rfl | rfl <;> simp
  | some c =>
    intro hEq
    have hIs := hBody.1 c hHead
    rw [Option.some.inj hEq] at hIs
    cases hIs

/-- The text of a model says the calls that add all that the model has. -/
theorem textSays_render : TextSays (Text.dropByteOrderMark m.render.toList) m.calls := by
  rw [dropByteOrderMark_render hLabels]
  have hLines := map_text_filledLines_render hLabels
  rw [renderLines_eq, List.map_cons, List.map_append] at hLines
  have hStates : ListsStates
      (dropTerminator (stateLine (m.states.toList.map State.id) ++ ";").toList)
      (m.states.toList.map State.id) := by
    rw [EndsLine.dropTerminator_eq (.inr rfl)]
    exact listsStates_stateLine _
  have hTransitions : SayAll
      ((terminated (m.sortedTransitions.map transitionLine)).map String.toList)
      (m.sortedTransitions.map fun _ => .transition)
      (m.sortedTransitions.flatMap fun t => [.transition t]) :=
    sayAll_terminated fun t _ => says_transitionLine t
  have hNames : SayAll ((terminated (m.states.toList.map labelLine)).map String.toList)
      (m.states.toList.map fun _ => .labels) (m.states.toList.flatMap labelCalls) :=
    sayAll_terminated fun s hs => says_labelLine (hLabels s (Array.mem_toList_iff.mp hs))
  refine ⟨_, _, m.states.toList.map State.id, _, _, hLines, hStates,
    hTransitions.append hNames, ?_, ?_⟩
  · -- each state has a line of labels, if only an empty one
    cases m.states.toList with
    | nil => exact .inl rfl
    | cons s rest => exact .inr (List.mem_append_right _ List.mem_cons_self)
  · rw [calls, ← List.map_eq_flatMap]

end Render

end BranchingTime.Model
