import BranchingTime.Model.Parse
import BranchingTime.Proofs.Ident
import BranchingTime.Proofs.Model.Calls
import BranchingTime.Proofs.Text.Splitting

/-!
# BranchingTime — what the text of a model says

Each line of a model's text stands for calls of a builder. `ListsStates` and
`Says` tell which, from the shape of the line alone; the reader finds the same
calls by cutting and trimming, and carries them out. Names have no blanks,
colons or dashes in them, so cuts at the first colon and the first dash cannot
go wrong.

## Results

* `readStates_eq_ok_iff`, `readLine_eq_ok_iff` — one line.
* `parse_eq_ok_iff` — a text is read if its lines say calls that are all
  accepted.
* `hasLabelNames_of_parse` — so its labels are words of letters.
-/

namespace BranchingTime.Model

open Text (trim splitBy splitFirst? isBlank Line)
open Builder (Call callAll_nil_eq_ok_iff callAll_cons_eq_ok_iff callAll_singleton_eq_ok_iff
  callAll_append_eq_ok_iff)

-- ---------------------------------------------------------------------------
-- What lines say
-- ---------------------------------------------------------------------------

/-- The identifier with this name, blanks around it aside. -/
def named? (letter : Char) (name : List Char) : Option (Ident letter) :=
  Ident.ofName? letter (String.ofList (trim name))

/-- The first line, without its end, lists these states. -/
def ListsStates (body : List Char) (ids : List StateId) : Prop :=
  if body = [] then ids = [] else (splitBy (· == ',') body).map (named? 's') = ids.map some

/-- A later line, without its end, is of this kind and says these calls. -/
inductive Says : ModelLine → List Char → List Call → Prop where
  | transition {name source target : List Char} {dash : Char} {t : Transition} :
      named? 't' name = some t.id → isDash dash = true → named? 's' source = some t.source →
      named? 's' target = some t.target →
      Says .transition (name ++ ':' :: (source ++ dash :: target)) [.transition t]
  | labels {name labels : List Char} {id : StateId} :
      named? 's' name = some id → (∀ word ∈ labelWords labels, word.all Char.isAlpha = true) →
      Says .labels (name ++ ':' :: labels)
        ((labelWords labels).map fun word => .label id (String.ofList word))

/-- Lines after the first one are of these kinds and say these calls. -/
inductive SayAll : List (List Char) → List ModelLine → List Call → Prop where
  | nil : SayAll [] [] []
  | cons {text : List Char} {rest : List (List Char)} {kind : ModelLine} {kinds : List ModelLine}
      {calls others : List Call} :
      Says kind (dropTerminator text) calls → SayAll rest kinds others →
      SayAll (text :: rest) (kind :: kinds) (calls ++ others)

/-- A text says these calls: its first filled line lists states, the others add
to them, and a text with states has a line with labels. -/
def TextSays (text : List Char) (calls : List Call) : Prop :=
  ∃ first rest ids kinds others,
    (Text.filledLines text).map Line.text = first :: rest ∧
    ListsStates (dropTerminator first) ids ∧ SayAll rest kinds others ∧
    (ids = [] ∨ .labels ∈ kinds) ∧ calls = ids.map .state ++ others

/-- Can a model's text hold this label? It has to be a word of letters. -/
def IsLabelName (label : String) : Prop :=
  label ≠ "" ∧ label.toList.all Char.isAlpha = true

instance (label : String) : Decidable (IsLabelName label) :=
  inferInstanceAs (Decidable (_ ∧ _))

/-- All labels can be held by a text. -/
def HasLabelNames (m : Model) : Prop :=
  ∀ s ∈ m.states, ∀ label ∈ s.labels, IsLabelName label

theorem IsLabelName.isWord {label : String} (h : IsLabelName label) : Text.IsWord label.toList where
  filled := fun hNil => h.1 (String.toList_eq_nil_iff.mp hNil)
  isAlphanum := by
    intro c hc
    rw [Char.isAlphanum, List.all_eq_true.mp h.2 c hc]
    rfl

-- ---------------------------------------------------------------------------
-- Pieces of a line
-- ---------------------------------------------------------------------------

theorem readIdent_eq_ok_iff {letter : Char} {fault : String → ModelLineFault} {name : List Char}
    {id : Ident letter} :
    readIdent letter fault (trim name) = .ok id ↔ named? letter name = some id := by
  unfold readIdent named?
  cases Ident.ofName? letter (String.ofList (trim name)) <;> simp

theorem readState_eq_ok_iff {name : List Char} {id : StateId} :
    readState (trim name) = .ok id ↔ named? 's' name = some id :=
  readIdent_eq_ok_iff

theorem readTransitionId_eq_ok_iff {name : List Char} {id : TransitionId} :
    readTransitionId (trim name) = .ok id ↔ named? 't' name = some id :=
  readIdent_eq_ok_iff

theorem addPart_eq_ok_iff {b b' : Builder} {c : Call} :
    addPart b c = .ok b' ↔ b.call c = .ok b' := by
  unfold addPart
  cases b.call c with
  | ok next =>
    show Except.ok next = Except.ok b' ↔ _
    rw [Except.ok.injEq, Except.ok.injEq]
  | error e => exact iff_of_false nofun nofun

theorem cutAtColon_eq_ok_iff {wanted : ModelLine} {body name rest : List Char} :
    cutAtColon wanted body = .ok (name, rest) ↔
      ∃ before, ':' ∉ before ∧ trim before = name ∧ body = before ++ ':' :: rest := by
  unfold cutAtColon
  constructor
  · intro h
    split at h
    · rename_i before after hSplit
      cases h
      obtain ⟨hBefore, c, hColon, rfl⟩ := Text.splitFirst?_eq_some_iff.mp hSplit
      rw [beq_iff_eq] at hColon
      refine ⟨before, fun hMem => ?_, rfl, by rw [hColon]⟩
      have hNot := hBefore ':' hMem
      cases hNot
    · cases h
  · rintro ⟨before, hColon, rfl, rfl⟩
    have hBefore : ∀ c ∈ before, (c == ':') = false := fun c hc =>
      beq_false_of_ne fun hEq => hColon (hEq ▸ hc)
    rw [Text.splitFirst?_eq_some_iff.mpr ⟨hBefore, ':', rfl, rfl⟩]

theorem cutAtDash_eq_ok_iff {edge source target : List Char} :
    cutAtDash edge = .ok (source, target) ↔
      target ≠ [] ∧ ∃ before dash after, (∀ c ∈ before, isDash c = false) ∧ isDash dash = true ∧
        edge = before ++ dash :: after ∧ trim before = source ∧ trim after = target := by
  unfold cutAtDash
  constructor
  · intro h
    split at h
    · cases h
    · rename_i before after hSplit
      split at h
      · cases h
      · rename_i hTarget
        rw [List.isEmpty_iff] at hTarget
        cases h
        obtain ⟨hBefore, dash, hDash, hEdge⟩ := Text.splitFirst?_eq_some_iff.mp hSplit
        exact ⟨hTarget, before, dash, after, hBefore, hDash, hEdge, rfl, rfl⟩
  · rintro ⟨hTarget, before, dash, after, hBefore, hDash, rfl, rfl, rfl⟩
    rw [Text.splitFirst?_eq_some_iff.mpr ⟨hBefore, dash, hDash, rfl⟩]
    dsimp only
    rw [if_neg (mt List.isEmpty_iff.mp hTarget)]

-- ---------------------------------------------------------------------------
-- Names
-- ---------------------------------------------------------------------------

theorem isWord_of_named? {letter : Char} {name : List Char} {id : Ident letter}
    (h : named? letter name = some id) (hLetter : letter.isAlpha = true := by decide) :
    Text.IsWord (trim name) :=
  String.toList_ofList (l := trim name) ▸ Ident.isWord_of_ofName? h hLetter

theorem isDash_iff {c : Char} : isDash c = true ↔ c = '-' ∨ c = '–' ∨ c = '—' := by
  simp [isDash, or_assoc]

theorem isDash_of_isWord {name : List Char} (h : Text.IsWord (trim name)) :
    ∀ c ∈ name, isDash c = false := by
  intro c hc
  rw [Bool.eq_false_iff, ne_eq, isDash_iff]
  intro hDash
  have hKind : isBlank c = false ∧ c.isAlphanum = false := by
    rcases hDash with rfl | rfl | rfl <;> decide
  exact Text.notMem_of_isWord_trim h hKind.1 hKind.2 hc

-- ---------------------------------------------------------------------------
-- Lines of a kind
-- ---------------------------------------------------------------------------

variable {b b' : Builder} {body text : List Char}

theorem readTransition_eq_ok_iff :
    readTransition b body = .ok b' ↔
      ∃ calls, Says .transition body calls ∧ b.callAll calls = .ok b' := by
  unfold readTransition
  simp only [bind_eq_ok_iff, Prod.exists, cutAtColon_eq_ok_iff, cutAtDash_eq_ok_iff,
    addPart_eq_ok_iff]
  constructor
  · rintro ⟨_, edge, ⟨name, -, rfl, rfl⟩, id, hId, _, _,
      ⟨-, source, dash, target, -, hDash, rfl, rfl, rfl⟩, x, hx, y, hy, hCall⟩
    rw [readTransitionId_eq_ok_iff] at hId
    rw [readState_eq_ok_iff] at hx hy
    exact ⟨[.transition ⟨id, x, y⟩], .transition hId hDash hx hy,
      callAll_singleton_eq_ok_iff.mpr hCall⟩
  · rintro ⟨_, hSays, hCalls⟩
    cases hSays with
    | @transition name source target dash t hId hDash hSource hTarget =>
      have hColon : ':' ∉ name :=
        Text.notMem_of_isWord_trim (isWord_of_named? hId) (by decide) (by decide)
      refine ⟨trim name, _, ⟨name, hColon, rfl, rfl⟩, t.id, readTransitionId_eq_ok_iff.mpr hId,
        trim source, trim target, ⟨(isWord_of_named? hTarget).filled, source, dash, target,
          isDash_of_isWord (isWord_of_named? hSource), hDash, rfl, rfl, rfl⟩,
        t.source, readState_eq_ok_iff.mpr hSource, t.target, readState_eq_ok_iff.mpr hTarget, ?_⟩
      exact callAll_singleton_eq_ok_iff.mp hCalls

theorem readLabel_foldlM_eq_ok_iff {id : StateId} {words : List (List Char)} :
    words.foldlM (readLabel id) b = .ok b' ↔
      (∀ word ∈ words, word.all Char.isAlpha = true) ∧
        b.callAll (words.map fun word => .label id (String.ofList word)) = .ok b' := by
  induction words generalizing b with
  | nil => simp [callAll_nil_eq_ok_iff, pure, Except.pure]
  | cons word rest ih =>
    have hWord (next : Builder) : readLabel id b word = .ok next ↔
        word.all Char.isAlpha = true ∧ b.call (.label id (String.ofList word)) = .ok next := by
      unfold readLabel
      dsimp only
      split
      · rename_i hAlpha
        rw [addPart_eq_ok_iff, and_iff_right hAlpha]
      · rename_i hAlpha
        exact iff_of_false (fun h => nomatch h) fun h => hAlpha h.1
    rw [List.foldlM_cons, bind_eq_ok_iff, List.map_cons, callAll_cons_eq_ok_iff,
      List.forall_mem_cons]
    simp only [hWord, ih]
    grind

theorem readLabels_eq_ok_iff :
    readLabels b body = .ok b' ↔
      ∃ calls, Says .labels body calls ∧ b.callAll calls = .ok b' := by
  unfold readLabels
  simp only [bind_eq_ok_iff, Prod.exists, cutAtColon_eq_ok_iff, readLabel_foldlM_eq_ok_iff]
  constructor
  · rintro ⟨_, labels, ⟨name, -, rfl, rfl⟩, id, hId, hWords, hCalls⟩
    exact ⟨_, .labels (readState_eq_ok_iff.mp hId) hWords, hCalls⟩
  · rintro ⟨_, hSays, hCalls⟩
    cases hSays with
    | @labels name labels id hId hWords =>
      have hColon : ':' ∉ name :=
        Text.notMem_of_isWord_trim (isWord_of_named? hId) (by decide) (by decide)
      exact ⟨trim name, labels, ⟨name, hColon, rfl, rfl⟩, id, readState_eq_ok_iff.mpr hId, hWords,
        hCalls⟩

-- ---------------------------------------------------------------------------
-- Any line
-- ---------------------------------------------------------------------------

/-- The letter that a line of this kind starts with. -/
def letter : ModelLine → Char
  | .transition => 't'
  | .labels => 's'

/-- The two kinds of lines can be told apart by their first letter. -/
theorem Says.head?_eq {kind : ModelLine} {calls : List Call} (h : Says kind body calls)
    (hFirst : ∀ c, body.head? = some c → isBlank c = false) :
    body.head? = some (letter kind) := by
  have hFront {name rest : List Char} {c : Char} {digits : List Char}
      (hFirst : ∀ c, (name ++ rest).head? = some c → isBlank c = false)
      (hName : trim name = c :: digits) : (name ++ rest).head? = some c := by
    have hHead : name.head? = some c := by
      refine Text.head?_of_head?_trim (fun d hd => hFirst d ?_) (by rw [hName]; rfl)
      rw [List.head?_append, hd]
      rfl
    rw [List.head?_append, hHead]
    rfl
  cases h with
  | transition hId _ _ _ =>
    obtain ⟨digits, hName, -⟩ := Ident.ofName?_eq_some_iff.mp hId
    rw [String.toList_ofList] at hName
    exact hFront hFirst hName
  | labels hId _ =>
    obtain ⟨digits, hName, -⟩ := Ident.ofName?_eq_some_iff.mp hId
    rw [String.toList_ofList] at hName
    exact hFront hFirst hName

theorem dropTerminator_append_eq (text : List Char) :
    ∃ rest, text = dropTerminator text ++ rest := by
  have hDropped : ∃ rest, text = Text.trimRight text.dropLast ++ rest := by
    obtain ⟨blanks, -, hBlanks⟩ := Text.exists_blanks_right text.dropLast
    obtain ⟨last, hLast⟩ := List.dropLast_prefix text
    refine ⟨blanks ++ last, ?_⟩
    rw [← List.append_assoc, ← hBlanks, hLast]
  unfold dropTerminator
  split
  · exact hDropped
  · exact hDropped
  · obtain ⟨blanks, -, hBlanks⟩ := Text.exists_blanks_right text
    exact ⟨blanks, hBlanks⟩

/-- Taking away the end of a line leaves its first character. -/
theorem first_dropTerminator (hFirst : ∀ c, text.head? = some c → isBlank c = false) {c : Char}
    (hc : (dropTerminator text).head? = some c) : isBlank c = false := by
  obtain ⟨rest, hText⟩ := dropTerminator_append_eq text
  refine hFirst c ?_
  rw [hText, List.head?_append, hc]
  rfl

section Line

variable (hFirst : ∀ c, text.head? = some c → isBlank c = false)
include hFirst

theorem readLine_eq_ok_iff :
    readLine b text = .ok b' ↔
      ∃ kind calls, Says kind (dropTerminator text) calls ∧ b.callAll calls = .ok b' := by
  have hBody (c : Char) := first_dropTerminator hFirst (c := c)
  unfold readLine
  dsimp only
  constructor
  · intro h
    split at h
    · exact ⟨.transition, readTransition_eq_ok_iff.mp h⟩
    · exact ⟨.labels, readLabels_eq_ok_iff.mp h⟩
    · cases h
  · rintro ⟨kind, calls, hSays, hCalls⟩
    obtain ⟨rest, hRest⟩ := List.head?_eq_some_iff.mp (hSays.head?_eq hBody)
    cases kind with
    | transition =>
      have hRead := readTransition_eq_ok_iff.mpr ⟨calls, hSays, hCalls⟩
      rw [hRest] at hRead ⊢
      exact hRead
    | labels =>
      have hRead := readLabels_eq_ok_iff.mpr ⟨calls, hSays, hCalls⟩
      rw [hRest] at hRead ⊢
      exact hRead

theorem isLabelLine_iff {kind : ModelLine} {calls : List Call}
    (hSays : Says kind (dropTerminator text) calls) : isLabelLine text = true ↔ kind = .labels := by
  unfold isLabelLine
  rw [hSays.head?_eq fun c hc => first_dropTerminator hFirst hc]
  cases kind <;> decide

end Line

theorem readStates_eq_ok_iff :
    readStates b text = .ok b' ↔
      ∃ ids, ListsStates (dropTerminator text) ids ∧ b.callAll (ids.map .state) = .ok b' := by
  have hNames (names : List (List Char)) (b : Builder) :
      names.foldlM (fun b name => do
        let id ← readState (trim name)
        addPart b (.state id)) b = .ok b' ↔
      ∃ ids : List StateId, names.map (named? 's') = ids.map some ∧
        b.callAll (ids.map .state) = .ok b' := by
    induction names generalizing b with
    | nil =>
      simp [callAll_nil_eq_ok_iff, pure, Except.pure]
    | cons name rest ih =>
      rw [List.foldlM_cons]
      simp only [bind_eq_ok_iff, readState_eq_ok_iff, addPart_eq_ok_iff, ih, List.map_cons]
      constructor
      · rintro ⟨next, ⟨id, hId, hCall⟩, ids, hIds, hCalls⟩
        refine ⟨id :: ids, by rw [hId, hIds, List.map_cons], ?_⟩
        exact callAll_cons_eq_ok_iff.mpr ⟨next, hCall, hCalls⟩
      · rintro ⟨_ | ⟨id, ids⟩, hIds, hCalls⟩
        · cases hIds
        · obtain ⟨hId, hIds⟩ := List.cons.inj hIds
          obtain ⟨next, hCall, hCalls⟩ := callAll_cons_eq_ok_iff.mp hCalls
          exact ⟨next, ⟨id, hId, hCall⟩, ids, hIds, hCalls⟩
  unfold readStates ListsStates
  dsimp only
  by_cases hEmpty : dropTerminator text = []
  · simp [hEmpty, callAll_nil_eq_ok_iff]
  · simp only [List.isEmpty_iff, hEmpty, if_false]
    exact hNames _ b

-- ---------------------------------------------------------------------------
-- Whole texts
-- ---------------------------------------------------------------------------

theorem Says.notMem_state {kind : ModelLine} {calls : List Call} (h : Says kind body calls)
    (id : StateId) : .state id ∉ calls := by
  cases h <;> simp

/-- Lines after the first one declare no states. -/
theorem SayAll.notMem_state {texts : List (List Char)} {kinds : List ModelLine}
    {calls : List Call} (h : SayAll texts kinds calls) (id : StateId) : .state id ∉ calls := by
  induction h with
  | nil => exact List.not_mem_nil
  | cons hSays _ ih =>
    rw [List.mem_append, not_or]
    exact ⟨hSays.notMem_state id, ih⟩

section Lines

variable {lines : List Line}
variable (hFirst : ∀ line ∈ lines, ∀ c, line.text.head? = some c → isBlank c = false)
include hFirst

theorem readLines_eq_ok_iff :
    readLines b lines = .ok b' ↔
      ∃ kinds calls, SayAll (lines.map Line.text) kinds calls ∧ b.callAll calls = .ok b' := by
  induction lines generalizing b with
  | nil =>
    rw [readLines, Except.ok.injEq, ← callAll_nil_eq_ok_iff]
    constructor
    · intro h
      exact ⟨[], [], .nil, h⟩
    · rintro ⟨_, _, hSays, hCalls⟩
      cases hSays
      exact hCalls
  | cons line rest ih =>
    obtain ⟨hLine, hRest⟩ := List.forall_mem_cons.mp hFirst
    unfold readLines
    constructor
    · intro h
      split at h
      · rename_i next hNext
        obtain ⟨kind, calls, hSays, hCalls⟩ := (readLine_eq_ok_iff hLine).mp hNext
        obtain ⟨kinds, others, hOthers, hMore⟩ := (ih hRest).mp h
        exact ⟨kind :: kinds, calls ++ others, .cons hSays hOthers,
          callAll_append_eq_ok_iff.mpr ⟨next, hCalls, hMore⟩⟩
      · cases h
    · rintro ⟨_, _, hAll, hCalls⟩
      cases hAll with
      | cons hSays hOthers =>
        obtain ⟨next, hCalls, hMore⟩ := callAll_append_eq_ok_iff.mp hCalls
        rw [(readLine_eq_ok_iff hLine).mpr ⟨_, _, hSays, hCalls⟩]
        exact (ih hRest).mpr ⟨_, _, hOthers, hMore⟩

theorem any_isLabelLine_iff {kinds : List ModelLine} {calls : List Call}
    (h : SayAll (lines.map Line.text) kinds calls) :
    lines.any (isLabelLine ·.text) = true ↔ .labels ∈ kinds := by
  induction lines generalizing kinds calls with
  | nil =>
    cases h
    simp
  | cons line rest ih =>
    obtain ⟨hLine, hRest⟩ := List.forall_mem_cons.mp hFirst
    cases h with
    | cons hSays hOthers =>
      rw [List.any_cons, Bool.or_eq_true, isLabelLine_iff hLine hSays, ih hRest hOthers,
        List.mem_cons, eq_comm]

end Lines

/-- The builder of a text has states if the text declares some. -/
theorem isEmpty_states_iff {ids : List StateId} {others : List Call}
    (hOthers : ∀ id, .state id ∉ others)
    (h : Builder.callAll {} (ids.map .state ++ others) = .ok b) :
    b.states.isEmpty = true ↔ ids = [] := by
  have hReflects := Builder.reflects_callAll Builder.reflects_empty h
  have hNone : others.filterMap Call.state? = [] := by
    rw [List.filterMap_eq_nil_iff]
    intro c hc
    cases c with
    | state id => exact absurd hc (hOthers id)
    | _ => rfl
  have hDeclared : b.declared.toList = ids := by
    rw [hReflects.states, List.nil_append, List.filterMap_append, hNone, List.append_nil,
      List.filterMap_map]
    exact List.filterMap_some
  rw [← hDeclared, Builder.declared]
  simp

/-- A text is read if the calls that its lines say are all accepted, as the model
that they describe. -/
theorem parse_eq_ok_iff {text : String} {m : Model} :
    parse text = .ok m ↔
      ∃ calls b, TextSays (Text.dropByteOrderMark text.toList) calls ∧
        Builder.callAll {} calls = .ok b ∧ m = b.build := by
  unfold parse TextSays
  dsimp only
  have hTrimmed (line : Line) (h : line ∈ Text.filledLines (Text.dropByteOrderMark text.toList)) :=
    (Text.isTrimmed_of_mem_filledLines h).first
  cases hLines : Text.filledLines (Text.dropByteOrderMark text.toList) with
  | nil => simp
  | cons first rest =>
    rw [hLines] at hTrimmed
    have hRest := (List.forall_mem_cons.mp hTrimmed).2
    dsimp only
    constructor
    · intro h
      split at h
      · cases h
      · rename_i declared hDeclared
        split at h
        · cases h
        · rename_i b hRead
          obtain ⟨ids, hIds, hStates⟩ := readStates_eq_ok_iff.mp hDeclared
          obtain ⟨kinds, others, hAll, hOthers⟩ := (readLines_eq_ok_iff hRest).mp hRead
          have hCalls := callAll_append_eq_ok_iff.mpr ⟨declared, hStates, hOthers⟩
          split at h
          · cases h
          · rename_i hLabels
            refine ⟨_, b, ⟨first.text, rest.map Line.text, ids, kinds, others, rfl, hIds, hAll, ?_,
              rfl⟩, hCalls, (Except.ok.inj h).symm⟩
            rw [← any_isLabelLine_iff hRest hAll, ← isEmpty_states_iff hAll.notMem_state hCalls]
            grind
    · rintro ⟨_, b, ⟨_, _, ids, kinds, others, hTexts, hIds, hAll, hLabels, rfl⟩, hCalls, rfl⟩
      cases hTexts
      obtain ⟨declared, hStates, hOthers⟩ := callAll_append_eq_ok_iff.mp hCalls
      rw [← any_isLabelLine_iff hRest hAll, ← isEmpty_states_iff hAll.notMem_state hCalls]
        at hLabels
      rw [readStates_eq_ok_iff.mpr ⟨ids, hIds, hStates⟩]
      dsimp only
      rw [(readLines_eq_ok_iff hRest).mpr ⟨kinds, others, hAll, hOthers⟩]
      dsimp only
      rw [if_neg]
      grind

-- ---------------------------------------------------------------------------
-- Labels
-- ---------------------------------------------------------------------------

theorem Says.isLabelName {kind : ModelLine} {calls : List Call} (h : Says kind body calls)
    {id : StateId} {label : String} (hMem : .label id label ∈ calls) : IsLabelName label := by
  cases h with
  | transition => simp at hMem
  | labels _ hWords =>
    obtain ⟨word, hWord, hEq⟩ := List.mem_map.mp hMem
    obtain ⟨-, rfl⟩ := Call.label.inj hEq
    obtain ⟨-, hFilled⟩ := List.mem_filter.mp hWord
    constructor
    · intro hEmpty
      rw [← String.toList_eq_nil_iff, String.toList_ofList] at hEmpty
      rw [hEmpty] at hFilled
      cases hFilled
    · rw [String.toList_ofList]
      exact hWords word hWord

theorem SayAll.isLabelName {texts : List (List Char)} {kinds : List ModelLine} {calls : List Call}
    (h : SayAll texts kinds calls) {id : StateId} {label : String}
    (hMem : .label id label ∈ calls) : IsLabelName label := by
  induction h with
  | nil => cases hMem
  | cons hSays _ ih =>
    rcases List.mem_append.mp hMem with hMem | hMem
    · exact hSays.isLabelName hMem
    · exact ih hMem

theorem isBuilt_of_parse {text : String} {m : Model} (h : parse text = .ok m) : m.IsBuilt := by
  obtain ⟨calls, b, -, hCalls, rfl⟩ := parse_eq_ok_iff.mp h
  exact isBuilt_of_callAll hCalls

/-- The labels of a model that was read are words of letters. -/
theorem hasLabelNames_of_parse {text : String} {m : Model} (h : parse text = .ok m) :
    m.HasLabelNames := by
  obtain ⟨_, b, ⟨_, _, ids, _, others, -, -, hAll, -, rfl⟩, hCalls, rfl⟩ := parse_eq_ok_iff.mp h
  have hBuilt := isBuiltFrom_of_callAll hCalls
  intro s hs label hLabel
  have hCall := ((hBuilt.labels_of_mem hs).2 label).mp hLabel
  have hOther : .label s.id label ∈ others := by
    simpa using hCall
  exact hAll.isLabelName hOther

end BranchingTime.Model
