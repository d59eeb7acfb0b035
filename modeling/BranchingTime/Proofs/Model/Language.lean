import BranchingTime.Proofs.Model.Reading
import Mathlib.Data.List.Forall2

/-!
# BranchingTime — the language of model texts

    text        := mark? line (LF line)*
    first line  := (state ("," state)*)? end
    other lines := transition ":" state dash state end
                 | state ":" labels end
    dash        := "-" | "–" | "—"
    end         := ("," | ";")?

Lines of blanks do not count. Blanks may stand around a name, around a line and
in front of its end; labels are words of letters with spaces, tabs and commas
between them. `Describes` says which states and entries a text of this form
lists, without reading it from left to right; `IsConsistent` says when they make
a model.

## Results

* `describes_unique` — a text describes one list of states and entries.
* `textSays_iff` — what it describes are the calls that the reader carries out.
* `accepts_iff_isConsistent` — a text is read iff what it describes is
  consistent, and then the model is what it describes.
-/

namespace BranchingTime.Model

open Text (trim splitFirst? isBlank IsTrimmed)
open Builder (Call FitAll)

-- ---------------------------------------------------------------------------
-- The format
-- ---------------------------------------------------------------------------

/-- A letter and the digits of a number, with blanks around them. -/
def IsName (letter : Char) (name : List Char) (number : UInt32) : Prop :=
  ∃ left digits right, name = left ++ letter :: digits ++ right ∧
    (∀ c ∈ left, isBlank c = true) ∧ (∀ c ∈ right, isBlank c = true) ∧
    digits ≠ [] ∧ (∀ c ∈ digits, c.isDigit = true) ∧
    Nat.ofDigitChars 10 digits 0 = number.toNat

/-- The name of a state, with blanks around it. -/
def NamesState (name : List Char) (id : StateId) : Prop :=
  IsName 's' name id.number

/-- The name of a transition, with blanks around it. -/
def NamesTransition (name : List Char) (id : TransitionId) : Prop :=
  IsName 't' name id.number

/-- The line is this body, with blanks around it and with an end: a body keeps no
comma or semicolon that could be the end. -/
inductive IsLine (body : List Char) : List Char → Prop where
  | plain {left right : List Char} : IsTrimmed body →
      (∀ c ∈ left, isBlank c = true) → (∀ c ∈ right, isBlank c = true) →
      (∀ c ∈ [',', ';'], body.getLast? ≠ some c) → IsLine body (left ++ body ++ right)
  | ended {left middle right : List Char} {c : Char} : IsTrimmed body →
      (∀ c ∈ left, isBlank c = true) → (∀ c ∈ middle, isBlank c = true) →
      (∀ c ∈ right, isBlank c = true) → c ∈ [',', ';'] →
      IsLine body (left ++ body ++ middle ++ c :: right)

/-- The body of the first line: names of states with commas between them. -/
def IsStateList (body : List Char) (ids : List StateId) : Prop :=
  ∃ names, body = [','].intercalate names ∧ List.Forall₂ NamesState names ids

/-- What a line after the first one gives. -/
inductive Entry where
  | transition (t : Transition)
  | labels (id : StateId) (names : List String)

/-- The words between spaces, tabs and commas. -/
def wordsOf (labels : List Char) : List (List Char) :=
  (labels.splitOnP (· ∈ [' ', '\t', ','])).filter (· ≠ [])

/-- The body of a line after the first one gives this entry. -/
inductive IsEntry : List Char → Entry → Prop where
  | transition {name source target : List Char} {dash : Char} {t : Transition} :
      NamesTransition name t.id → dash ∈ ['-', '–', '—'] → NamesState source t.source →
      NamesState target t.target →
      IsEntry (name ++ ':' :: (source ++ dash :: target)) (.transition t)
  | labels {name labels : List Char} {id : StateId} :
      NamesState name id → (∀ word ∈ wordsOf labels, ∀ c ∈ word, c.isAlpha = true) →
      IsEntry (name ++ ':' :: labels) (.labels id ((wordsOf labels).map String.ofList))

/-- The lines with more than blanks, of a text without its byte order mark. -/
def IsContent (text : String) (lines : List (List Char)) : Prop :=
  ∃ chars, (text.toList = '\ufeff' :: chars ∨
      (text.toList.head? ≠ some '\ufeff' ∧ text.toList = chars)) ∧
    lines = (chars.splitOn '\n').filter fun line => !line.all isBlank

/-- The first line of the text lists these states, and the others give these
entries. -/
def Describes (text : String) (ids : List StateId) (entries : List Entry) : Prop :=
  ∃ first rest, IsContent text (first :: rest) ∧
    (∃ body, IsLine body first ∧ IsStateList body ids) ∧
    List.Forall₂ (fun line entry => ∃ body, IsLine body line ∧ IsEntry body entry) rest entries

-- ---------------------------------------------------------------------------
-- What is consistent
-- ---------------------------------------------------------------------------

/-- The transition of an entry. -/
def Entry.transition? : Entry → Option Transition
  | transition t => some t
  | labels _ _ => none

/-- The labels of an entry, each with its state. -/
def Entry.labelled : Entry → List (StateId × String)
  | transition _ => []
  | labels id names => names.map (id, ·)

/-- The transitions of the entries, in their order. -/
def transitionsOfEntries (entries : List Entry) : List Transition :=
  entries.filterMap Entry.transition?

/-- What the lines of a text describe is a model. -/
structure IsConsistent (ids : List StateId) (entries : List Entry) : Prop where
  states : ids.Nodup
  endpoints : ∀ t, .transition t ∈ entries → t.source ∈ ids ∧ t.target ∈ ids
  labelled : ∀ id names, .labels id names ∈ entries → names ≠ [] → id ∈ ids
  transitions : ((transitionsOfEntries entries).map Transition.id).Nodup
  edges : ((transitionsOfEntries entries).map fun t => (t.source, t.target)).Nodup
  labels : (entries.flatMap Entry.labelled).Nodup
  /-- A text without a line of labels is that of a model without states. -/
  hasLabels : ids = [] ∨ ∃ id names, .labels id names ∈ entries

-- ---------------------------------------------------------------------------
-- Names and lines
-- ---------------------------------------------------------------------------

theorem isName_iff {letter : Char} (hLetter : letter.isAlpha = true) {name : List Char}
    {number : UInt32} :
    IsName letter name number ↔
      ∃ digits, trim name = letter :: digits ∧ Text.word32? digits = some number := by
  constructor
  · rintro ⟨left, digits, right, rfl, hLeft, hRight, hDigits⟩
    have hNumeral := Text.word32?_eq_some_iff.mpr hDigits
    have hWord := Text.isWord_of_word32? hLetter hNumeral
    exact ⟨digits, Text.trim_padded hLeft hRight hWord.isTrimmed, hNumeral⟩
  · rintro ⟨digits, hTrim, hNumeral⟩
    obtain ⟨left, right, hLeft, hRight, hAround⟩ := Text.exists_blanks_around name
    rw [hTrim] at hAround
    exact ⟨left, digits, right, hAround, hLeft, hRight, Text.word32?_eq_some_iff.mp hNumeral⟩

theorem isName_iff_named? {letter : Char} (hLetter : letter.isAlpha = true) {name : List Char}
    {id : Ident letter} : IsName letter name id.number ↔ named? letter name = some id := by
  rw [isName_iff hLetter, named?, Ident.ofName?_eq_some_iff, String.toList_ofList]

theorem namesState_iff {name : List Char} {id : StateId} :
    NamesState name id ↔ named? 's' name = some id :=
  isName_iff_named? rfl

theorem namesTransition_iff {name : List Char} {id : TransitionId} :
    NamesTransition name id ↔ named? 't' name = some id :=
  isName_iff_named? rfl

theorem dropTerminator_ended {c : Char} (hc : c ∈ [',', ';']) (text : List Char) :
    dropTerminator (text ++ [c]) = Text.trimRight text := by
  rw [dropTerminator, List.getLast?_concat, List.dropLast_concat]
  rcases List.mem_pair.mp hc with rfl | rfl
  · rfl
  · rfl

theorem dropTerminator_plain {text : List Char} (h : ∀ c ∈ [',', ';'], text.getLast? ≠ some c) :
    dropTerminator text = Text.trimRight text := by
  unfold dropTerminator
  split
  · rename_i hLast
    exact absurd hLast (h ',' (by decide))
  · rename_i hLast
    exact absurd hLast (h ';' (by decide))
  · rfl

theorem isTrimmed_dropTerminator {text : List Char} (h : IsTrimmed text) :
    IsTrimmed (dropTerminator text) where
  first _ hc := first_dropTerminator h.first hc
  last c hc := by
    unfold dropTerminator at hc
    split at hc <;> exact Text.last_trimRight _ hc

theorem IsLine.dropTerminator_eq {body line : List Char} (h : IsLine body line) :
    dropTerminator (trim line) = body := by
  cases h with
  | plain hBody hLeft hRight hLast =>
    rw [Text.trim_padded hLeft hRight hBody, dropTerminator_plain hLast,
      Text.trimRight_eq_self hBody.last]
  | @ended left middle right c hBody hLeft hMiddle hRight hc =>
    have hFilled : isBlank c = false := by
      rcases List.mem_pair.mp hc with rfl | rfl <;> decide
    have hRest : Text.trimRight right = [] := Text.trimRight_append_of_blank hRight []
    rw [trim, Text.trimLeft_append_cons hFilled, Text.trimRight_append_cons hFilled, hRest,
      dropTerminator_ended hc, ← trim, Text.trim_padded hLeft hMiddle hBody]

theorem isLine_dropTerminator (line : List Char) : IsLine (dropTerminator (trim line)) line := by
  have hBody := isTrimmed_dropTerminator (Text.isTrimmed_trim line)
  obtain ⟨left, right, hLeft, hRight, hAround⟩ := Text.exists_blanks_around line
  by_cases hEnd : ∃ c ∈ [',', ';'], (trim line).getLast? = some c
  · -- the end goes, and the blanks in front of it go too
    obtain ⟨c, hc, hLast⟩ := hEnd
    obtain ⟨front, hFront⟩ := List.getLast?_eq_some_iff.mp hLast
    obtain ⟨middle, hMiddle, hBlanks⟩ := Text.exists_blanks_right front
    have hDrop : dropTerminator (trim line) = Text.trimRight front := by
      rw [hFront, dropTerminator_ended hc]
    have hLine : line = left ++ dropTerminator (trim line) ++ middle ++ c :: right := by
      rw [hDrop, List.append_assoc left, ← hBlanks]
      rw [hFront] at hAround
      simpa using hAround
    have hEnded := IsLine.ended hBody hLeft hMiddle hRight hc
    rwa [← hLine] at hEnded
  · have hLast : ∀ c ∈ [',', ';'], (trim line).getLast? ≠ some c := fun c hc hEq =>
      hEnd ⟨c, hc, hEq⟩
    have hDrop : dropTerminator (trim line) = trim line := by
      rw [dropTerminator_plain hLast, Text.trimRight_eq_self (Text.isTrimmed_trim line).last]
    rw [← hDrop] at hLast
    have hPlain := IsLine.plain hBody hLeft hRight hLast
    rwa [hDrop, ← hAround, ← hDrop] at hPlain

/-- The body of a line is what the reader gets. -/
theorem isLine_iff {body line : List Char} :
    IsLine body line ↔ dropTerminator (trim line) = body := by
  constructor
  · exact IsLine.dropTerminator_eq
  · rintro rfl
    exact isLine_dropTerminator line

-- ---------------------------------------------------------------------------
-- States and entries
-- ---------------------------------------------------------------------------

theorem forall₂_namesState_iff {names : List (List Char)} {ids : List StateId} :
    List.Forall₂ NamesState names ids ↔ names.map (named? 's') = ids.map some := by
  have hNames : NamesState = fun name id => named? 's' name = some id := by
    funext name id
    exact propext namesState_iff
  calc List.Forall₂ NamesState names ids
      ↔ List.Forall₂ (· = ·) (names.map (named? 's')) (ids.map some) := by
        rw [List.forall₂_map_left_iff, List.forall₂_map_right_iff, hNames]
    _ ↔ names.map (named? 's') = ids.map some := by rw [List.forall₂_eq_eq_eq]

theorem isWord_of_map_named? {names : List (List Char)} {ids : List StateId}
    (h : names.map (named? 's') = ids.map some) : ∀ name ∈ names, Text.IsWord (trim name) := by
  intro name hName
  have hMem : named? 's' name ∈ names.map (named? 's') := List.mem_map_of_mem hName
  rw [h] at hMem
  obtain ⟨id, -, hId⟩ := List.mem_map.mp hMem
  exact isWord_of_named? hId.symm

theorem isStateList_iff {body : List Char} {ids : List StateId} :
    IsStateList body ids ↔ ListsStates body ids := by
  simp only [IsStateList, forall₂_namesState_iff, ListsStates, Text.splitBy_eq_splitOnP,
    ← List.splitOn_eq_splitOnP]
  constructor
  · rintro ⟨names, rfl, hNames⟩
    -- a name is not empty, so nothing is listed only by no names
    cases names with
    | nil =>
      rw [List.intercalate_nil, if_pos rfl]
      exact List.map_eq_nil_iff.mp hNames.symm
    | cons name rest =>
      have hWord := isWord_of_map_named? hNames
      have hComma : ∀ piece ∈ name :: rest, ',' ∉ piece := fun piece hPiece =>
        Text.notMem_of_isWord_trim (hWord piece hPiece) (by decide) rfl
      have hFilled : name ≠ [] := by
        rintro rfl
        exact (hWord [] List.mem_cons_self).filled rfl
      rwa [if_neg (Text.intercalate_ne_nil [','] hFilled rest),
        List.splitOn_intercalate ',' hComma (List.cons_ne_nil name rest)]
  · intro hLists
    split at hLists
    · rename_i hBody
      subst hBody hLists
      exact ⟨[], rfl, rfl⟩
    · exact ⟨body.splitOn ',', (List.intercalate_splitOn ',').symm, hLists⟩

theorem wordsOf_eq_labelWords (labels : List Char) : wordsOf labels = labelWords labels := by
  have hSeparator : (fun c => decide (c ∈ [' ', '\t', ','])) = isLabelSeparator := by
    funext c
    simp [isLabelSeparator, Bool.or_assoc, Bool.decide_or, Bool.beq_eq_decide_eq]
  rw [wordsOf, labelWords, Text.splitBy_eq_splitOnP, hSeparator]
  refine List.filter_congr fun word _ => ?_
  cases word with
  | nil => rfl
  | cons c rest => rfl

/-- The kind of line that gives an entry. -/
def Entry.kind : Entry → ModelLine
  | transition _ => .transition
  | labels _ _ => .labels

/-- The calls that add an entry. -/
def Entry.calls : Entry → List Call
  | transition t => [.transition t]
  | labels id names => names.map (.label id)

theorem IsEntry.says {body : List Char} {e : Entry} (h : IsEntry body e) :
    Says e.kind body e.calls := by
  cases h with
  | transition hName hDash hSource hTarget =>
    exact .transition (namesTransition_iff.mp hName) (isDash_iff.mpr (by simpa using hDash))
      (namesState_iff.mp hSource) (namesState_iff.mp hTarget)
  | labels hName hWords =>
    simp only [wordsOf_eq_labelWords] at hWords
    simp only [Entry.kind, Entry.calls, wordsOf_eq_labelWords, List.map_map]
    exact .labels (namesState_iff.mp hName) fun word hWord =>
      List.all_eq_true.mpr (hWords word hWord)

theorem Says.exists_isEntry {kind : ModelLine} {body : List Char} {calls : List Call}
    (h : Says kind body calls) : ∃ e, IsEntry body e ∧ e.kind = kind ∧ e.calls = calls := by
  cases h with
  | transition hName hDash hSource hTarget =>
    exact ⟨.transition _, .transition (namesTransition_iff.mpr hName)
      (by simpa using isDash_iff.mp hDash) (namesState_iff.mpr hSource)
      (namesState_iff.mpr hTarget), rfl, rfl⟩
  | labels hName hWords =>
    refine ⟨.labels _ _, .labels (namesState_iff.mpr hName) ?_, rfl, ?_⟩
    · rw [wordsOf_eq_labelWords]
      exact fun word hWord => List.all_eq_true.mp (hWords word hWord)
    · simp only [Entry.calls, wordsOf_eq_labelWords, List.map_map]
      rfl

/-- An entry as the cuts at the first colon and the first dash give it. -/
theorem IsEntry.cut {body : List Char} {e : Entry} (h : IsEntry body e) :
    ∃ name rest, splitFirst? (· == ':') body = some (name, rest) ∧
      ((∃ t source target, e = .transition t ∧ named? 't' name = some t.id ∧
          splitFirst? isDash rest = some (source, target) ∧
          named? 's' source = some t.source ∧ named? 's' target = some t.target) ∨
        ∃ id, e = .labels id ((wordsOf rest).map String.ofList) ∧ named? 's' name = some id) := by
  have hColon {name rest : List Char} (hName : Text.IsWord (trim name)) :
      splitFirst? (· == ':') (name ++ ':' :: rest) = some (name, rest) := by
    refine Text.splitFirst?_eq_some_iff.mpr ⟨fun c hc => ?_, ':', rfl, rfl⟩
    refine beq_false_of_ne ?_
    rintro rfl
    exact Text.notMem_of_isWord_trim hName (by decide) rfl hc
  cases h with
  | transition hName hDash hSource hTarget =>
    rw [namesTransition_iff] at hName
    rw [namesState_iff] at hSource hTarget
    refine ⟨_, _, hColon (isWord_of_named? hName),
      .inl ⟨_, _, _, rfl, hName, Text.splitFirst?_eq_some_iff.mpr ?_, hSource, hTarget⟩⟩
    exact ⟨isDash_of_isWord (isWord_of_named? hSource), _,
      isDash_iff.mpr (by simpa using hDash), rfl⟩
  | labels hName _ =>
    rw [namesState_iff] at hName
    exact ⟨_, _, hColon (isWord_of_named? hName), .inr ⟨_, rfl, hName⟩⟩

theorem named?_state_ne_of_transition {name : List Char} {id : TransitionId}
    (h : named? 't' name = some id) (id' : StateId) : named? 's' name ≠ some id' := by
  rw [← namesTransition_iff, NamesTransition, isName_iff rfl] at h
  rw [ne_eq, ← namesState_iff, NamesState, isName_iff rfl]
  obtain ⟨digits, hTrim, -⟩ := h
  rintro ⟨digits', hTrim', -⟩
  cases hTrim.symm.trans hTrim'

theorem IsEntry.unique {body : List Char} {e e' : Entry} (h : IsEntry body e)
    (h' : IsEntry body e') : e = e' := by
  obtain ⟨name, rest, hCut, hEntry⟩ := h.cut
  obtain ⟨name', rest', hCut', hEntry'⟩ := h'.cut
  cases hCut.symm.trans hCut'
  rcases hEntry with ⟨t, source, target, rfl, hName, hEdge, hSource, hTarget⟩ | ⟨id, rfl, hName⟩
  · rcases hEntry' with ⟨u, source', target', rfl, hName', hEdge', hSource', hTarget'⟩ |
      ⟨id', -, hName'⟩
    · cases hEdge.symm.trans hEdge'
      cases t
      cases u
      simp_all
    · exact absurd hName' (named?_state_ne_of_transition hName id')
  · rcases hEntry' with ⟨u, -, -, -, hName', -⟩ | ⟨id', rfl, hName'⟩
    · exact absurd hName (named?_state_ne_of_transition hName' id)
    · cases hName.symm.trans hName'
      rfl

-- ---------------------------------------------------------------------------
-- Texts
-- ---------------------------------------------------------------------------

/-- The later lines say the calls of the entries that they give. -/
theorem sayAll_iff {lines : List (List Char)} {kinds : List ModelLine} {calls : List Call} :
    SayAll (lines.map trim) kinds calls ↔
      ∃ entries, List.Forall₂ (fun line e => ∃ body, IsLine body line ∧ IsEntry body e)
        lines entries ∧ kinds = entries.map Entry.kind ∧ calls = entries.flatMap Entry.calls := by
  constructor
  · intro h
    induction lines generalizing kinds calls with
    | nil =>
      cases h
      exact ⟨[], .nil, rfl, rfl⟩
    | cons line rest ih =>
      cases h with
      | cons hSays hRest =>
        obtain ⟨e, hEntry, rfl, rfl⟩ := hSays.exists_isEntry
        obtain ⟨entries, hEntries, rfl, rfl⟩ := ih hRest
        exact ⟨e :: entries, .cons ⟨_, isLine_iff.mpr rfl, hEntry⟩ hEntries, rfl, rfl⟩
  · rintro ⟨entries, hEntries, rfl, rfl⟩
    induction hEntries with
    | nil => exact .nil
    | cons hLine _ ih =>
      obtain ⟨body, hBody, hEntry⟩ := hLine
      rw [isLine_iff] at hBody
      subst hBody
      exact .cons hEntry.says ih

theorem isContent_iff {text : String} {lines : List (List Char)} :
    IsContent text lines ↔
      lines = ((Text.dropByteOrderMark text.toList).splitOn '\n').filter
        fun line => !line.all isBlank := by
  simp only [IsContent, ← Text.dropByteOrderMark_eq_iff, exists_eq_left']

theorem exists_labels_iff {entries : List Entry} :
    .labels ∈ entries.map Entry.kind ↔ ∃ id names, .labels id names ∈ entries := by
  rw [List.mem_map]
  constructor
  · rintro ⟨e, he, hKind⟩
    cases e with
    | transition t => cases hKind
    | labels id names => exact ⟨id, names, he⟩
  · rintro ⟨id, names, he⟩
    exact ⟨_, he, rfl⟩

/-- A text says the declarations of the states that it lists and the calls of the
entries that it gives. -/
theorem textSays_iff {text : String} {calls : List Call} :
    TextSays (Text.dropByteOrderMark text.toList) calls ↔
      ∃ ids entries, Describes text ids entries ∧
        (ids = [] ∨ ∃ id names, .labels id names ∈ entries) ∧
        calls = ids.map .state ++ entries.flatMap Entry.calls := by
  rw [TextSays, Text.map_text_filledLines_eq_splitOn]
  constructor
  · rintro ⟨_, _, ids, kinds, others, hLines, hStates, hAll, hLabels, rfl⟩
    obtain ⟨first, rest, hContent, rfl, rfl⟩ := List.map_eq_cons_iff.mp hLines
    obtain ⟨entries, hEntries, rfl, rfl⟩ := sayAll_iff.mp hAll
    rw [exists_labels_iff] at hLabels
    exact ⟨ids, entries, ⟨first, rest, isContent_iff.mpr hContent.symm,
      ⟨_, isLine_iff.mpr rfl, isStateList_iff.mpr hStates⟩, hEntries⟩, hLabels, rfl⟩
  · rintro ⟨ids, entries, ⟨first, rest, hContent, ⟨body, hBody, hStates⟩, hEntries⟩, hLabels, rfl⟩
    rw [isContent_iff] at hContent
    rw [isLine_iff] at hBody
    subst hBody
    refine ⟨trim first, rest.map trim, ids, entries.map Entry.kind, _, ?_,
      isStateList_iff.mp hStates, sayAll_iff.mpr ⟨entries, hEntries, rfl, rfl⟩, ?_, rfl⟩
    · rw [← hContent]
      rfl
    · rwa [exists_labels_iff]

theorem describes_unique {text : String} {ids ids' : List StateId} {entries entries' : List Entry}
    (h : Describes text ids entries) (h' : Describes text ids' entries') :
    ids = ids' ∧ entries = entries' := by
  obtain ⟨first, rest, hContent, ⟨body, hBody, hStates⟩, hEntries⟩ := h
  obtain ⟨first', rest', hContent', ⟨body', hBody', hStates'⟩, hEntries'⟩ := h'
  rw [isContent_iff] at hContent hContent'
  cases hContent.trans hContent'.symm
  rw [isLine_iff] at hBody hBody'
  cases hBody.symm.trans hBody'
  constructor
  · rw [isStateList_iff, ListsStates] at hStates hStates'
    split at hStates
    · rename_i hEmpty
      rw [if_pos hEmpty] at hStates'
      rw [hStates, hStates']
    · rename_i hFilled
      rw [if_neg hFilled] at hStates'
      exact List.map_injective_iff.mpr (fun _ _ => Option.some.inj) (hStates.symm.trans hStates')
  · refine List.right_unique_forall₂' ?_ hEntries hEntries'
    rintro line e e' ⟨body, hLine, hEntry⟩ ⟨body', hLine', hEntry'⟩
    rw [isLine_iff] at hLine hLine'
    cases hLine.symm.trans hLine'
    exact hEntry.unique hEntry'

-- ---------------------------------------------------------------------------
-- Consistency
-- ---------------------------------------------------------------------------

theorem filterMap_transition?_entries (entries : List Entry) :
    (entries.flatMap Entry.calls).filterMap Call.transition? = transitionsOfEntries entries := by
  rw [List.filterMap_flatMap, transitionsOfEntries, List.filterMap_eq_flatMap_toList]
  refine List.flatMap_congr fun e _ => ?_
  cases e with
  | transition t => rfl
  | labels id names => simp [Entry.calls, Entry.transition?, Call.transition?, List.filterMap_map,
      Function.comp_def]

theorem filterMap_label?_entries (entries : List Entry) :
    (entries.flatMap Entry.calls).filterMap Call.label? = entries.flatMap Entry.labelled := by
  rw [List.filterMap_flatMap]
  refine List.flatMap_congr fun e _ => ?_
  cases e with
  | transition t => rfl
  | labels id names => simp [Entry.calls, Entry.labelled, Call.label?, List.filterMap_map,
      Function.comp_def]

theorem mem_calls_entries {entries : List Entry} {c : Call} :
    c ∈ entries.flatMap Entry.calls ↔
      (∃ t, .transition t ∈ entries ∧ c = .transition t) ∨
        ∃ id names label, .labels id names ∈ entries ∧ label ∈ names ∧ c = .label id label := by
  rw [List.mem_flatMap]
  constructor
  · rintro ⟨e, he, hCall⟩
    cases e with
    | transition t => exact .inl ⟨t, he, List.mem_singleton.mp hCall⟩
    | labels id names =>
      obtain ⟨label, hLabel, rfl⟩ := List.mem_map.mp hCall
      exact .inr ⟨id, names, label, he, hLabel, rfl⟩
  · rintro (⟨t, he, rfl⟩ | ⟨id, names, label, he, hLabel, rfl⟩)
    · exact ⟨_, he, List.mem_singleton_self _⟩
    · exact ⟨_, he, List.mem_map_of_mem hLabel⟩

theorem label_mem_calls_entries {entries : List Entry} {id : StateId} {label : String} :
    .label id label ∈ entries.flatMap Entry.calls ↔
      ∃ names, .labels id names ∈ entries ∧ label ∈ names := by
  rw [mem_calls_entries]
  simp

theorem state_notMem_calls_entries (entries : List Entry) (id : StateId) :
    .state id ∉ entries.flatMap Entry.calls := by
  rw [mem_calls_entries]
  simp

/-- What entries need: the ends of transitions, and the states with labels. -/
theorem needs_entries_iff {ids : List StateId} {entries : List Entry} :
    (∀ c ∈ entries.flatMap Entry.calls, ∀ id ∈ c.needs, id ∈ ids) ↔
      (∀ t, .transition t ∈ entries → t.source ∈ ids ∧ t.target ∈ ids) ∧
      ∀ id names, .labels id names ∈ entries → names ≠ [] → id ∈ ids := by
  constructor
  · intro hNeeds
    constructor
    · intro t ht
      have hCall := hNeeds _ (mem_calls_entries.mpr (.inl ⟨t, ht, rfl⟩))
      exact ⟨hCall _ List.mem_cons_self, hCall _ (List.mem_cons_of_mem _ List.mem_cons_self)⟩
    · intro id names he hFilled
      obtain ⟨label, rest, rfl⟩ := List.exists_cons_of_ne_nil hFilled
      have hLabel := label_mem_calls_entries.mpr ⟨_, he, List.mem_cons_self⟩
      exact hNeeds _ hLabel id List.mem_cons_self
  · rintro ⟨hEnds, hLabelled⟩ c hc id hId
    obtain ⟨t, ht, rfl⟩ | ⟨id', names, label, he, hLabel, rfl⟩ := mem_calls_entries.mp hc
    · obtain ⟨hSource, hTarget⟩ := hEnds t ht
      rcases List.mem_pair.mp hId with rfl | rfl
      · exact hSource
      · exact hTarget
    · rw [List.mem_singleton.mp hId]
      exact hLabelled id' names he (List.ne_nil_of_mem hLabel)

/-- What is described is consistent iff a builder accepts it all. -/
theorem isConsistent_iff {ids : List StateId} {entries : List Entry} :
    IsConsistent ids entries ↔
      FitAll [] (ids.map .state ++ entries.flatMap Entry.calls) ∧
        (ids = [] ∨ ∃ id names, .labels id names ∈ entries) := by
  have hStates := state_notMem_calls_entries entries
  rw [Builder.fitAll_states_append_iff hStates, needs_entries_iff,
    Builder.pairwise_clashes_iff hStates, filterMap_transition?_entries, filterMap_label?_entries]
  constructor
  · intro h
    exact ⟨⟨h.states, ⟨h.endpoints, h.labelled⟩, h.transitions, h.edges, h.labels⟩, h.hasLabels⟩
  · rintro ⟨⟨hDistinct, ⟨hEnds, hLabelled⟩, hIds, hEdges, hLabels⟩, hHas⟩
    exact ⟨hDistinct, hEnds, hLabelled, hIds, hEdges, hLabels, hHas⟩

-- ---------------------------------------------------------------------------
-- The language
-- ---------------------------------------------------------------------------

/-- A text is read iff it describes what is consistent, as the model that a builder
makes of it. -/
theorem parse_eq_ok_iff_describes {text : String} {m : Model} :
    parse text = .ok m ↔
      ∃ ids entries b, Describes text ids entries ∧ IsConsistent ids entries ∧
        Builder.callAll {} (ids.map .state ++ entries.flatMap Entry.calls) = .ok b ∧
        m = b.build := by
  rw [parse_eq_ok_iff]
  constructor
  · rintro ⟨calls, b, hSays, hCalls, rfl⟩
    obtain ⟨ids, entries, hDescribes, hHas, rfl⟩ := textSays_iff.mp hSays
    have hFit := (Builder.fitAll_iff Builder.reflects_empty).mpr ⟨b, hCalls⟩
    exact ⟨ids, entries, b, hDescribes, isConsistent_iff.mpr ⟨hFit, hHas⟩, hCalls, rfl⟩
  · rintro ⟨ids, entries, b, hDescribes, hConsistent, hCalls, rfl⟩
    exact ⟨_, b, textSays_iff.mpr ⟨ids, entries, hDescribes, hConsistent.hasLabels, rfl⟩, hCalls,
      rfl⟩

section Content

variable {m : Model} {ids : List StateId} {entries : List Entry}
variable (hm : m.IsBuiltFrom (ids.map .state ++ entries.flatMap Entry.calls))
include hm

theorem mem_ids_iff {id : StateId} : (∃ s ∈ m.states, s.id = id) ↔ id ∈ ids := by
  rw [hm.declared, List.mem_append, or_iff_left (state_notMem_calls_entries entries id)]
  simp

theorem transitions_eq_entries : m.transitions.toList = transitionsOfEntries entries := by
  rw [hm.transitions, List.filterMap_append, Builder.filterMap_transition?_states,
    filterMap_transition?_entries, List.nil_append]

theorem exists_labels_of_mem {id : StateId} (hId : id ∈ ids) :
    ∃ labels, m.labelsOf? id = some labels ∧ labels.Pairwise (· < ·) ∧
      ∀ label, label ∈ labels ↔ ∃ names, .labels id names ∈ entries ∧ label ∈ names := by
  have hContains := hm.contains_iff_exists.mpr ((mem_ids_iff hm).mpr hId)
  obtain ⟨labels, hLabels, hAscend, hMem⟩ := hm.labels id hContains
  refine ⟨labels, hLabels, hAscend, fun label => ?_⟩
  rw [hMem, ← label_mem_calls_entries, List.mem_append]
  simp

end Content

/-- **The language of model texts.** A text is read iff it describes states and
entries that are consistent. Then the states of the model are the listed ones,
its transitions are those of the entries, in their order, and the labels of each
state, sorted, are all those that some entry gives it. -/
theorem accepts_iff_isConsistent (text : String) :
    ((∃ m, parse text = .ok m) ↔
      ∃ ids entries, Describes text ids entries ∧ IsConsistent ids entries) ∧
    ∀ m ids entries, parse text = .ok m → Describes text ids entries →
      (m.states.toList.map State.id).Perm ids ∧
      m.transitions.toList = transitionsOfEntries entries ∧
      ∀ id ∈ ids, ∃ labels, m.labelsOf? id = some labels ∧ labels.Pairwise (· < ·) ∧
        ∀ label, label ∈ labels ↔ ∃ names, .labels id names ∈ entries ∧ label ∈ names := by
  simp only [parse_eq_ok_iff_describes]
  constructor
  · constructor
    · rintro ⟨m, ids, entries, b, hDescribes, hConsistent, -⟩
      exact ⟨ids, entries, hDescribes, hConsistent⟩
    · rintro ⟨ids, entries, hDescribes, hConsistent⟩
      obtain ⟨b, hCalls⟩ := (Builder.fitAll_iff Builder.reflects_empty).mp
        (isConsistent_iff.mp hConsistent).1
      exact ⟨b.build, ids, entries, b, hDescribes, hConsistent, hCalls, rfl⟩
  · rintro _ ids entries ⟨ids', entries', b, hRead, hConsistent, hCalls, rfl⟩ hDescribes
    obtain ⟨rfl, rfl⟩ := describes_unique hDescribes hRead
    have hm := isBuiltFrom_of_callAll hCalls
    refine ⟨?_, transitions_eq_entries hm, fun id hId => exists_labels_of_mem hm hId⟩
    have hDistinct : (b.build.states.toList.map State.id).Nodup := by
      rw [List.nodup_iff_pairwise_ne, List.pairwise_map]
      exact hm.ascending.imp fun hLt => Std.ne_of_lt hLt
    refine (List.perm_ext_iff_of_nodup hDistinct hConsistent.states).mpr fun id => ?_
    rw [← mem_ids_iff hm]
    simp

/-- A text with a mark, blanks, a dash and an empty line of labels, where the
labels of `s2` come from two lines. -/
theorem accepts_padded_text :
    let text := "\ufeff\n s2 , s1;\r\nt7: s2 — s1 ,\n\t\ns2 : p, q ;\ns1:\ns2 : r"
    let t7 : Transition := ⟨⟨7⟩, ⟨2⟩, ⟨1⟩⟩
    let entries : List Entry :=
      [.transition t7, .labels ⟨2⟩ ["p", "q"], .labels ⟨1⟩ [], .labels ⟨2⟩ ["r"]]
    Describes text [⟨2⟩, ⟨1⟩] entries ∧ IsConsistent [⟨2⟩, ⟨1⟩] entries ∧
    ∃ m, parse text = .ok m ∧ (m.states.toList.map State.id).Perm [⟨2⟩, ⟨1⟩] ∧
      m.transitions.toList = [t7] ∧
      ∃ labels, m.labelsOf? ⟨2⟩ = some labels ∧ "p" ∈ labels ∧ "q" ∈ labels ∧ "r" ∈ labels := by
  intro text t7 entries
  have hTransition : IsEntry "t7: s2 — s1".toList (.transition t7) :=
    .transition (namesTransition_iff.mpr (by decide : named? 't' ['t', '7'] = _)) (by decide)
      (namesState_iff.mpr (by decide : named? 's' [' ', 's', '2', ' '] = _))
      (namesState_iff.mpr (by decide : named? 's' [' ', 's', '1'] = _))
  have hLabels {name labels : List Char} {id : StateId} {words : List (List Char)}
      (hName : named? 's' name = some id) (hWords : wordsOf labels = words)
      (hAll : words.all (·.all Char.isAlpha) = true) :
      IsEntry (name ++ ':' :: labels) (.labels id (words.map String.ofList)) := by
    subst hWords
    exact .labels (namesState_iff.mpr hName) fun word hWord =>
      List.all_eq_true.mp (List.all_eq_true.mp hAll word hWord)
  have hDescribes : Describes text [⟨2⟩, ⟨1⟩] entries := by
    refine ⟨" s2 , s1;\r".toList, ["t7: s2 — s1 ,".toList, "s2 : p, q ;".toList, "s1:".toList,
        "s2 : r".toList], isContent_iff.mpr (by decide +kernel),
      ⟨"s2 , s1".toList, isLine_iff.mpr (by decide), ["s2 ".toList, " s1".toList], rfl, ?_⟩,
      .cons ⟨_, isLine_iff.mpr rfl, hTransition⟩
        (.cons ⟨_, isLine_iff.mpr rfl, ?_⟩ (.cons ⟨_, isLine_iff.mpr rfl, ?_⟩
          (.cons ⟨_, isLine_iff.mpr rfl, ?_⟩ .nil)))⟩
    · exact forall₂_namesState_iff.mpr (by decide)
    · exact hLabels (by decide : named? 's' ['s', '2', ' '] = _)
        (by decide : wordsOf [' ', 'p', ',', ' ', 'q'] = [['p'], ['q']]) rfl
    · exact hLabels (by decide : named? 's' ['s', '1'] = _) (by decide : wordsOf [] = []) rfl
    · exact hLabels (by decide : named? 's' ['s', '2', ' '] = _)
        (by decide : wordsOf [' ', 'r'] = [['r']]) rfl
  have hConsistent : IsConsistent [⟨2⟩, ⟨1⟩] entries :=
    { states := by decide
      endpoints := by simp [entries, t7]
      labelled := by
        intro id names hEntry _
        simp only [entries, List.mem_cons, reduceCtorEq, Entry.labels.injEq, List.not_mem_nil,
          or_false, false_or] at hEntry
        rcases hEntry with ⟨rfl, -⟩ | ⟨rfl, -⟩ | ⟨rfl, -⟩ <;> decide
      transitions := by decide
      edges := by decide
      labels := by decide
      hasLabels := .inr ⟨⟨2⟩, ["r"], by simp [entries]⟩ }
  obtain ⟨hAccepts, hContent⟩ := accepts_iff_isConsistent text
  obtain ⟨m, hParse⟩ := hAccepts.mpr ⟨_, _, hDescribes, hConsistent⟩
  obtain ⟨hStates, hTransitions, hLabelled⟩ := hContent m _ _ hParse hDescribes
  obtain ⟨labels, hLabelsOf, -, hMem⟩ := hLabelled ⟨2⟩ (by decide)
  refine ⟨hDescribes, hConsistent, m, hParse, hStates, hTransitions, labels, hLabelsOf, ?_⟩
  simp [hMem, entries]

end BranchingTime.Model
