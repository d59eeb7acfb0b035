import BranchingTime.Proofs.Model.Language
import BranchingTime.Proofs.Model.RoundTrip

/-!
# BranchingTime — layouts of model texts

A model can be written in many ways: with blank lines, with line feeds alone or
with carriage returns in front of them, with blanks around its lines, with commas
or semicolons at their ends, with any of three dashes, and with the lines after
the first one in any order. All of them are read as models with the same text.

A line is read through its plain body: without blanks around it, without its end,
and with hyphens for dashes. No change of a single line changes the plain body, and
the order of lines changes only the order of the entries.

## Results

* `Respelled.plainBody_eq` — changes within a line keep its plain body.
* `LinesDescribe.rearranged` — one change keeps the states, and the entries up to
  their order.
* `parse_relaid` — all layouts of a text are read as models with the same text.
-/

namespace BranchingTime.Model

open Text (trim trimLeft trimRight isBlank IsPadding)
open Builder (Call FitAll)

-- ---------------------------------------------------------------------------
-- Changing the layout
-- ---------------------------------------------------------------------------

/-- A change within a line. -/
inductive Respelled : List Char → List Char → Prop where
  /-- A line feed becomes a carriage return and a line feed. -/
  | addReturn (line : List Char) : Respelled line (line ++ ['\r'])
  /-- A carriage return and a line feed become a line feed. -/
  | dropReturn (line : List Char) : Respelled (line ++ ['\r']) line
  /-- Blanks are added at the start and at the end. -/
  | pad {left right : List Char} (line : List Char) : IsPadding left → IsPadding right →
      Respelled line (left ++ line ++ right)
  /-- A final comma or semicolon becomes the other one. -/
  | terminator {line blanks : List Char} {c c' : Char} : c ∈ [',', ';'] → c' ∈ [',', ';'] →
      (∀ c ∈ blanks, isBlank c = true) → Respelled (line ++ c :: blanks) (line ++ c' :: blanks)
  /-- A dash becomes another one. -/
  | dash {before after : List Char} {c c' : Char} : c ∈ ['-', '–', '—'] → c' ∈ ['-', '–', '—'] →
      Respelled (before ++ c :: after) (before ++ c' :: after)

/-- A change of the layout of a text, which is given by its lines. -/
inductive Rearranged : List (List Char) → List (List Char) → Prop where
  /-- A line of blanks is inserted. -/
  | blankLine {before after : List (List Char)} {line : List Char} : IsPadding line →
      Rearranged (before ++ after) (before ++ line :: after)
  /-- A line is changed. -/
  | respell {before after : List (List Char)} {line line' : List Char} : Respelled line line' →
      Rearranged (before ++ line :: after) (before ++ line' :: after)
  /-- The lines after the first filled one, which lists the states, change places. -/
  | permute {before later later' : List (List Char)} {first : List Char} :
      (∀ line ∈ before, line.all isBlank = true) → first.all isBlank = false →
      later.Perm later' → Rearranged (before ++ first :: later) (before ++ first :: later')

/-- Any number of changes lead from one text to the other. -/
def Relaid (text text' : String) : Prop :=
  Relation.ReflTransGen Rearranged (text.toList.splitOn '\n') (text'.toList.splitOn '\n')

-- ---------------------------------------------------------------------------
-- Plain bodies
-- ---------------------------------------------------------------------------

/-- A hyphen for any dash. -/
def plainDash (c : Char) : Char :=
  if isDash c then '-' else c

/-- What is read of a line, with hyphens for dashes. -/
def plainBody (line : List Char) : List Char :=
  (dropTerminator (trim line)).map plainDash

theorem plainDash_of_isDash {c : Char} (h : isDash c = true) : plainDash c = '-' :=
  if_pos h

theorem plainDash_eq_self {c : Char} (h : isDash c = false) : plainDash c = c :=
  if_neg (Bool.eq_false_iff.mp h)

theorem isDash_plainDash (c : Char) : isDash (plainDash c) = isDash c := by
  cases h : isDash c with
  | false => rw [plainDash_eq_self h, h]
  | true =>
    rw [plainDash_of_isDash h]
    rfl

theorem isBlank_plainDash (c : Char) : isBlank (plainDash c) = isBlank c := by
  cases h : isDash c with
  | false => rw [plainDash_eq_self h]
  | true =>
    rw [plainDash_of_isDash h]
    rcases isDash_iff.mp h with rfl | rfl | rfl <;> decide

/-- All other characters stand for themselves. -/
theorem plainDash_eq_iff {c d : Char} (h : isDash d = false) : plainDash c = d ↔ c = d := by
  constructor
  · rintro rfl
    rw [isDash_plainDash] at h
    exact (plainDash_eq_self h).symm
  · rintro rfl
    exact plainDash_eq_self h

theorem trimLeft_map_plainDash (cs : List Char) :
    trimLeft (cs.map plainDash) = (trimLeft cs).map plainDash := by
  have hBlank : isBlank ∘ plainDash = isBlank := funext isBlank_plainDash
  rw [trimLeft, List.dropWhile_map, hBlank, trimLeft]

theorem trimRight_map_plainDash (cs : List Char) :
    trimRight (cs.map plainDash) = (trimRight cs).map plainDash := by
  rw [Text.trimRight_eq_reverse, ← List.map_reverse, trimLeft_map_plainDash, ← List.map_reverse,
    ← Text.trimRight_eq_reverse]

theorem dropTerminator_map_plainDash (text : List Char) :
    dropTerminator (text.map plainDash) = (dropTerminator text).map plainDash := by
  have hLast (c : Char) (hc : c ∈ [',', ';']) :
      (text.map plainDash).getLast? = some c ↔ text.getLast? = some c := by
    have hOther : isDash c = false := by
      rcases List.mem_pair.mp hc with rfl | rfl <;> rfl
    rw [List.getLast?_map, Option.map_eq_some_iff]
    simp only [plainDash_eq_iff hOther, exists_eq_right]
  by_cases hEnd : ∃ c ∈ [',', ';'], text.getLast? = some c
  · obtain ⟨c, hc, hEnd⟩ := hEnd
    obtain ⟨front, rfl⟩ := List.getLast?_eq_some_iff.mp hEnd
    have hPlain : plainDash c = c := by
      rcases List.mem_pair.mp hc with rfl | rfl <;> rfl
    rw [List.map_append, List.map_singleton, hPlain, dropTerminator_ended hc,
      dropTerminator_ended hc, trimRight_map_plainDash]
  · have hNone (c : Char) (hc : c ∈ [',', ';']) : text.getLast? ≠ some c := fun h =>
      hEnd ⟨c, hc, h⟩
    rw [dropTerminator_plain fun c hc => mt (hLast c hc).mp (hNone c hc),
      dropTerminator_plain hNone, trimRight_map_plainDash]

/-- Dashes can be made plain before a line is read. -/
theorem plainBody_eq_map (line : List Char) :
    plainBody line = dropTerminator (trim (line.map plainDash)) := by
  rw [trim, trimLeft_map_plainDash, trimRight_map_plainDash, dropTerminator_map_plainDash,
    ← trim, ← plainBody]

theorem trim_ended {c : Char} (hc : c ∈ [',', ';']) (line : List Char) {blanks : List Char}
    (hBlanks : ∀ c ∈ blanks, isBlank c = true) :
    trim (line ++ c :: blanks) = trimLeft line ++ [c] := by
  have hFilled : isBlank c = false := by
    rcases List.mem_pair.mp hc with rfl | rfl <;> decide
  have hRest : trimRight blanks = [] := Text.trimRight_append_of_blank hBlanks []
  rw [trim, Text.trimLeft_append_cons hFilled, Text.trimRight_append_cons hFilled, hRest]

theorem trim_return (line : List Char) : trim (line ++ ['\r']) = trim line :=
  Text.trim_append_of_blank (fun c hc => by rw [List.mem_singleton.mp hc]; decide) line

/-- Changes within a line keep its plain body. -/
theorem Respelled.plainBody_eq {line line' : List Char} (h : Respelled line line') :
    plainBody line = plainBody line' := by
  cases h with
  | addReturn line => rw [plainBody, plainBody, trim_return]
  | dropReturn line => rw [plainBody, plainBody, trim_return]
  | pad line hLeft hRight =>
    rw [plainBody, plainBody, Text.trim_surrounded hLeft.isBlank_eq_true hRight.isBlank_eq_true]
  | terminator hc hc' hBlanks =>
    rw [plainBody, plainBody, trim_ended hc _ hBlanks, trim_ended hc' _ hBlanks,
      dropTerminator_ended hc, dropTerminator_ended hc']
  | dash hc hc' =>
    rw [plainBody_eq_map, plainBody_eq_map, List.map_append, List.map_append, List.map_cons,
      List.map_cons, plainDash_of_isDash (isDash_iff.mpr (by simpa using hc)),
      plainDash_of_isDash (isDash_iff.mpr (by simpa using hc'))]

/-- A line of blanks stays one, and no other line becomes one. -/
theorem Respelled.all_isBlank_eq {line line' : List Char} (h : Respelled line line') :
    line.all isBlank = line'.all isBlank := by
  -- ends and dashes are no blanks, so a line that has one holds more than blanks
  have hHolds {before after : List Char} {c : Char} (hc : isBlank c = false) :
      (before ++ c :: after).all isBlank = false := by
    rw [List.all_append, List.all_cons, hc, Bool.false_and, Bool.and_false]
  have hEnd {c : Char} (hc : c ∈ [',', ';']) : isBlank c = false := by
    rcases List.mem_pair.mp hc with rfl | rfl <;> decide
  have hDash {c : Char} (hc : c ∈ ['-', '–', '—']) : isBlank c = false := by
    have hCases : c = '-' ∨ c = '–' ∨ c = '—' := by simpa using hc
    rcases hCases with rfl | rfl | rfl <;> decide
  cases h with
  | addReturn line => rw [← Text.isEmpty_trim, ← Text.isEmpty_trim, trim_return]
  | dropReturn line => rw [← Text.isEmpty_trim, ← Text.isEmpty_trim, trim_return]
  | pad line hLeft hRight =>
    rw [← Text.isEmpty_trim, ← Text.isEmpty_trim,
      Text.trim_surrounded hLeft.isBlank_eq_true hRight.isBlank_eq_true]
  | terminator hc hc' _ => rw [hHolds (hEnd hc), hHolds (hEnd hc')]
  | dash hc hc' => rw [hHolds (hDash hc), hHolds (hDash hc')]

-- ---------------------------------------------------------------------------
-- What plain bodies say
-- ---------------------------------------------------------------------------

/-- Where no dash stands, the plain body is the body. -/
theorem eq_of_map_plainDash_eq {cs cs' : List Char} (h : ∀ c ∈ cs, isDash c = false)
    (hPlain : cs.map plainDash = cs'.map plainDash) : cs' = cs := by
  have hSelf : cs.map plainDash = cs := by
    rw [List.map_congr_left fun c hc => plainDash_eq_self (h c hc), List.map_id']
  rw [hSelf] at hPlain
  have hOther : ∀ c ∈ cs', isDash c = false := by
    intro c hc
    rw [← isDash_plainDash]
    exact h _ (hPlain ▸ List.mem_map_of_mem hc)
  rw [hPlain, List.map_congr_left fun c hc => plainDash_eq_self (hOther c hc), List.map_id']

theorem mem_splitOnP_of_mem {p : Char → Bool} {c : Char} {cs : List Char} (h : c ∈ cs)
    (hPiece : p c = false) : ∃ piece ∈ cs.splitOnP p, c ∈ piece := by
  induction cs with
  | nil => cases h
  | cons d rest ih =>
    obtain ⟨head, others, hPieces⟩ := List.exists_cons_of_ne_nil (List.splitOnP_ne_nil p rest)
    rw [List.splitOnP_cons_eq_if_modifyHead]
    rcases List.mem_cons.mp h with rfl | h
    · rw [if_neg (Bool.eq_false_iff.mp hPiece), hPieces]
      exact ⟨_, List.mem_cons_self, List.mem_cons_self⟩
    · obtain ⟨piece, hMem, hc⟩ := ih h
      split
      · exact ⟨piece, List.mem_cons_of_mem _ hMem, hc⟩
      · rw [hPieces] at hMem ⊢
        rcases List.mem_cons.mp hMem with rfl | hMem
        · exact ⟨_, List.mem_cons_self, List.mem_cons_of_mem d hc⟩
        · exact ⟨piece, List.mem_cons_of_mem _ hMem, hc⟩

/-- A list of states has no characters but those of names, blanks and commas. -/
theorem IsStateList.notMem {body : List Char} {ids : List StateId} (h : IsStateList body ids)
    {c : Char} (hBlank : isBlank c = false) (hOther : c.isAlphanum = false) (hComma : c ≠ ',') :
    c ∉ body := by
  obtain ⟨names, rfl, hNames⟩ := h
  have hWord := isWord_of_map_named? (forall₂_namesState_iff.mp hNames)
  exact Text.notMem_intercalate (by simpa using hComma) fun name hName =>
    Text.notMem_of_isWord_trim (hWord name hName) hBlank hOther

theorem kind_of_isDash {c : Char} (h : isDash c = true) :
    isBlank c = false ∧ c.isAlphanum = false ∧ c ∉ [':', ' ', '\t', ','] := by
  rcases isDash_iff.mp h with rfl | rfl | rfl <;> decide

/-- No dash stands among labels. -/
theorem isDash_of_words {labels : List Char}
    (h : ∀ word ∈ wordsOf labels, ∀ c ∈ word, c.isAlpha = true) :
    ∀ c ∈ labels, isDash c = false := by
  intro c hc
  refine Bool.eq_false_iff.mpr fun hDash => ?_
  obtain ⟨-, hAlphanum, hOther⟩ := kind_of_isDash hDash
  obtain ⟨word, hWord, hMem⟩ := mem_splitOnP_of_mem (p := (· ∈ [' ', '\t', ','])) hc
    (decide_eq_false fun h => hOther (List.mem_cons_of_mem _ h))
  have hAlpha := h word (List.mem_filter.mpr ⟨hWord, by simpa using List.ne_nil_of_mem hMem⟩) c hMem
  rw [Char.isAlphanum, hAlpha] at hAlphanum
  cases hAlphanum

/-- The plain body tells which entry a line gives. -/
theorem IsEntry.of_plain {body body' : List Char} {e : Entry} (h : IsEntry body e)
    (hPlain : body.map plainDash = body'.map plainDash) : IsEntry body' e := by
  cases h with
  | @transition name source target dash t hName hDash hSource hTarget =>
    have hNoDash {name : List Char} {id : StateId} (hName : NamesState name id) :=
      isDash_of_isWord (isWord_of_named? (namesState_iff.mp hName))
    rw [List.map_append, List.map_cons, List.map_append, List.map_cons] at hPlain
    obtain ⟨name', rest, rfl, hNamePlain, hRest⟩ := List.map_eq_append_iff.mp hPlain.symm
    obtain ⟨colon, rest, rfl, hColon, hRest⟩ := List.map_eq_cons_iff.mp hRest
    obtain ⟨source', rest, rfl, hSourcePlain, hRest⟩ := List.map_eq_append_iff.mp hRest
    obtain ⟨dash', target', rfl, hDashPlain, hTargetPlain⟩ := List.map_eq_cons_iff.mp hRest
    rw [eq_of_map_plainDash_eq
        (isDash_of_isWord (isWord_of_named? (namesTransition_iff.mp hName)))
        hNamePlain.symm,
      eq_of_map_plainDash_eq (hNoDash hSource) hSourcePlain.symm,
      eq_of_map_plainDash_eq (hNoDash hTarget) hTargetPlain.symm,
      (plainDash_eq_iff rfl).mp hColon]
    refine .transition hName ?_ hSource hTarget
    have hIsDash : isDash dash' = true := by
      rw [← isDash_plainDash, hDashPlain, isDash_plainDash, isDash_iff]
      simpa using hDash
    simpa using isDash_iff.mp hIsDash
  | @labels name labels id hName hWords =>
    have hBody : ∀ c ∈ name ++ ':' :: labels, isDash c = false :=
      List.forall_mem_append.mpr
        ⟨isDash_of_isWord (isWord_of_named? (namesState_iff.mp hName)),
          List.forall_mem_cons.mpr ⟨rfl, isDash_of_words hWords⟩⟩
    rw [eq_of_map_plainDash_eq hBody hPlain]
    exact .labels hName hWords

/-- The plain body tells which states a line lists. -/
theorem IsStateList.of_plain {body body' : List Char} {ids : List StateId}
    (h : IsStateList body ids) (hPlain : body.map plainDash = body'.map plainDash) :
    IsStateList body' ids := by
  have hBody : ∀ c ∈ body, isDash c = false := by
    intro c hc
    refine Bool.eq_false_iff.mpr fun hDash => ?_
    obtain ⟨hBlank, hAlphanum, hOther⟩ := kind_of_isDash hDash
    exact h.notMem hBlank hAlphanum (fun hComma => hOther (by simp [hComma])) hc
  rwa [eq_of_map_plainDash_eq hBody hPlain]

-- ---------------------------------------------------------------------------
-- Lines
-- ---------------------------------------------------------------------------

/-- The lines, blank ones aside, list these states and give these entries. -/
def LinesDescribe (lines : List (List Char)) (ids : List StateId) (entries : List Entry) : Prop :=
  ∃ first rest, lines.filter (fun line => !line.all isBlank) = first :: rest ∧
    (∃ body, IsLine body first ∧ IsStateList body ids) ∧
    List.Forall₂ (fun line entry => ∃ body, IsLine body line ∧ IsEntry body entry) rest entries

theorem describes_iff_linesDescribe {text : String} {ids : List StateId} {entries : List Entry} :
    Describes text ids entries ↔
      LinesDescribe ((Text.dropByteOrderMark text.toList).splitOn '\n') ids entries := by
  simp only [Describes, LinesDescribe, isContent_iff, eq_comm]

/-- Two lines that are read alike. -/
def SameLine (line line' : List Char) : Prop :=
  plainBody line = plainBody line' ∧ line.all isBlank = line'.all isBlank

theorem SameLine.refl (line : List Char) : SameLine line line :=
  ⟨rfl, rfl⟩

theorem SameLine.givesEntry {line line' : List Char} {e : Entry} (hSame : SameLine line line')
    (h : ∃ body, IsLine body line ∧ IsEntry body e) : ∃ body, IsLine body line' ∧ IsEntry body e := by
  obtain ⟨body, hBody, hEntry⟩ := h
  rw [isLine_iff] at hBody
  subst hBody
  exact ⟨_, isLine_dropTerminator line', hEntry.of_plain hSame.1⟩

theorem SameLine.listsStates {line line' : List Char} {ids : List StateId}
    (hSame : SameLine line line') (h : ∃ body, IsLine body line ∧ IsStateList body ids) :
    ∃ body, IsLine body line' ∧ IsStateList body ids := by
  obtain ⟨body, hBody, hStates⟩ := h
  rw [isLine_iff] at hBody
  subst hBody
  exact ⟨_, isLine_dropTerminator line', hStates.of_plain hSame.1⟩

section Lines

variable {lines lines' : List (List Char)} {ids : List StateId} {entries : List Entry}

theorem entries_of_sameLines (hSame : List.Forall₂ SameLine lines lines')
    (h : List.Forall₂ (fun line e => ∃ body, IsLine body line ∧ IsEntry body e) lines entries) :
    List.Forall₂ (fun line e => ∃ body, IsLine body line ∧ IsEntry body e) lines' entries := by
  induction hSame generalizing entries with
  | nil => exact h
  | cons hLine _ ih =>
    cases h with
    | cons hEntry hRest => exact .cons (hLine.givesEntry hEntry) (ih hRest)

/-- Lines that are read alike describe the same. -/
theorem LinesDescribe.of_sameLines (h : LinesDescribe lines ids entries)
    (hSame : List.Forall₂ SameLine lines lines') : LinesDescribe lines' ids entries := by
  have hFilled : List.Forall₂ SameLine (lines.filter fun line => !line.all isBlank)
      (lines'.filter fun line => !line.all isBlank) := by
    refine List.rel_filter ?_ hSame
    intro line line' hLine
    show (!line.all isBlank) = true ↔ (!line'.all isBlank) = true
    rw [hLine.2]
  obtain ⟨first, rest, hLines, hStates, hEntries⟩ := h
  rw [hLines] at hFilled
  obtain ⟨first', rest', hFirst, hRest, hLines'⟩ := List.forall₂_cons_left_iff.mp hFilled
  exact ⟨first', rest', hLines', hFirst.listsStates hStates, entries_of_sameLines hRest hEntries⟩

/-- One change of the layout keeps the states, and the entries up to their order. -/
theorem LinesDescribe.rearranged (h : LinesDescribe lines ids entries)
    (hStep : Rearranged lines lines') :
    ∃ entries', entries.Perm entries' ∧ LinesDescribe lines' ids entries' := by
  cases hStep with
  | @blankLine before after line hBlank =>
    have hAll : line.all isBlank = true := List.all_eq_true.mpr hBlank.isBlank_eq_true
    refine ⟨entries, .refl _, ?_⟩
    unfold LinesDescribe at h ⊢
    rw [List.filter_append] at h ⊢
    rwa [List.filter_cons_of_neg (by simp [hAll])]
  | respell hLine =>
    have hSelf (lines : List (List Char)) : List.Forall₂ SameLine lines lines :=
      List.forall₂_same.mpr fun line _ => .refl line
    exact ⟨entries, .refl _, h.of_sameLines
      (List.rel_append (hSelf _) (.cons ⟨hLine.plainBody_eq, hLine.all_isBlank_eq⟩ (hSelf _)))⟩
  | @permute before later later' first hBefore hFirst hPerm =>
    have hFilter (later : List (List Char)) :
        (before ++ first :: later).filter (fun line => !line.all isBlank) =
          first :: later.filter fun line => !line.all isBlank := by
      have hNone : before.filter (fun line => !line.all isBlank) = [] :=
        List.filter_eq_nil_iff.mpr fun line hLine => by simp [hBefore line hLine]
      rw [List.filter_append, hNone, List.nil_append,
        List.filter_cons_of_pos (by simp [hFirst])]
    obtain ⟨_, _, hLines, hStates, hEntries⟩ := h
    rw [hFilter] at hLines
    cases hLines
    obtain ⟨entries', hEntries', hMoved⟩ :=
      List.perm_comp_forall₂ (hPerm.symm.filter _) hEntries
    exact ⟨entries', hMoved.symm, first, _, hFilter later', hStates, hEntries'⟩

/-- So do any number of changes. -/
theorem LinesDescribe.relaid (h : LinesDescribe lines ids entries)
    (hSteps : Relation.ReflTransGen Rearranged lines lines') :
    ∃ entries', entries.Perm entries' ∧ LinesDescribe lines' ids entries' := by
  induction hSteps with
  | refl => exact ⟨entries, .refl _, h⟩
  | tail _ hStep ih =>
    obtain ⟨middle, hPerm, hMiddle⟩ := ih
    obtain ⟨entries', hPerm', hLast⟩ := hMiddle.rearranged hStep
    exact ⟨entries', hPerm.trans hPerm', hLast⟩

end Lines

-- ---------------------------------------------------------------------------
-- Texts
-- ---------------------------------------------------------------------------

theorem IsLine.mem_cases {body line : List Char} (h : IsLine body line) {c : Char}
    (hc : c ∈ line) : c ∈ body ∨ isBlank c = true ∨ c ∈ [',', ';'] := by
  cases h with
  | plain _ hLeft hRight _ =>
    rcases List.mem_append.mp hc with hc | hc
    · rcases List.mem_append.mp hc with hc | hc
      · exact .inr (.inl (hLeft c hc))
      · exact .inl hc
    · exact .inr (.inl (hRight c hc))
  | ended _ hLeft hMiddle hRight hEnd =>
    simp only [List.mem_append, List.mem_cons] at hc
    rcases hc with ((hc | hc) | hc) | rfl | hc
    · exact .inr (.inl (hLeft c hc))
    · exact .inl hc
    · exact .inr (.inl (hMiddle c hc))
    · exact .inr (.inr hEnd)
    · exact .inr (.inl (hRight c hc))

/-- A text whose lines describe something does not start with a byte order mark:
the mark would stand in the list of states. -/
theorem LinesDescribe.head?_ne_mark {text : List Char} {ids : List StateId} {entries : List Entry}
    (h : LinesDescribe (text.splitOn '\n') ids entries) : text.head? ≠ some '\ufeff' := by
  intro hMark
  obtain ⟨rest, rfl⟩ := List.head?_eq_some_iff.mp hMark
  obtain ⟨first, others, hLines, ⟨body, hBody, hStates⟩, -⟩ := h
  have hFirst : '\ufeff' ∈ first := by
    obtain ⟨piece, pieces, hPieces⟩ := List.exists_cons_of_ne_nil
      (List.splitOnP_ne_nil (· == '\n') rest)
    rw [List.splitOn_eq_splitOnP, List.splitOnP_cons_eq_if_modifyHead, if_neg (by decide), hPieces,
      List.modifyHead_cons, List.filter_cons_of_pos (by rw [List.all_cons]; rfl)] at hLines
    cases hLines
    exact List.mem_cons_self
  rcases hBody.mem_cases hFirst with hMem | hBlank | hEnd
  · exact hStates.notMem (by decide) (by decide) (by decide) hMem
  · exact absurd hBlank (by decide)
  · exact absurd hEnd (by decide)

theorem IsConsistent.perm {ids : List StateId} {entries entries' : List Entry}
    (h : IsConsistent ids entries) (hPerm : entries.Perm entries') : IsConsistent ids entries' where
  states := h.states
  endpoints t ht := h.endpoints t (hPerm.mem_iff.mpr ht)
  labelled id names he := h.labelled id names (hPerm.mem_iff.mpr he)
  transitions := ((hPerm.filterMap _).map _).nodup_iff.mp h.transitions
  edges := ((hPerm.filterMap _).map _).nodup_iff.mp h.edges
  labels := (hPerm.flatMap_right _).nodup_iff.mp h.labels
  hasLabels := h.hasLabels.imp_right fun ⟨id, names, he⟩ => ⟨id, names, hPerm.mem_iff.mp he⟩

/-- **The layout of a text does not matter.** Take a text without a byte order mark
that is read as a model. Any number of changes of its layout, and then a byte order
mark in front or none, give a text that is read too, as a model with the same
text. -/
theorem parse_relaid {text text' : String} {m : Model} (hMark : text.toList.head? ≠ some '\ufeff')
    (hParse : parse text = .ok m) (hRelaid : Relaid text text') :
    ∃ m', parse text' = .ok m' ∧ parse ("\ufeff" ++ text') = .ok m' ∧ m'.render = m.render := by
  obtain ⟨ids, entries, b, hText, hConsistent, hCalls, rfl⟩ := parse_eq_ok_iff_describes.mp hParse
  rw [describes_iff_linesDescribe, Text.dropByteOrderMark_eq_self hMark] at hText
  obtain ⟨entries', hPerm, hLines⟩ := hText.relaid hRelaid
  have hConsistent' := hConsistent.perm hPerm
  obtain ⟨b', hCalls'⟩ := (Builder.fitAll_iff Builder.reflects_empty).mp
    (isConsistent_iff.mp hConsistent').1
  have hRead {t : String} (ht : Text.dropByteOrderMark t.toList = text'.toList) :
      parse t = .ok b'.build := by
    refine parse_eq_ok_iff_describes.mpr ⟨ids, entries', b', ?_, hConsistent', hCalls', rfl⟩
    rwa [describes_iff_linesDescribe, ht]
  refine ⟨b'.build, hRead (Text.dropByteOrderMark_eq_self hLines.head?_ne_mark), hRead ?_, ?_⟩
  · rw [String.toList_append]
    rfl
  · have hm := isBuiltFrom_of_callAll hCalls
    have hm' := isBuiltFrom_of_callAll hCalls'
    have hSame : (ids.map Call.state ++ entries'.flatMap Entry.calls).Perm
        (ids.map Call.state ++ entries.flatMap Entry.calls) :=
      (hPerm.symm.flatMap_right _).append_left _
    have hParts : SameParts b'.build b.build :=
      sameParts_of_accepted hm' hm (fun _ => hSame.mem_iff) (fun _ _ _ => hSame.mem_iff)
        (hSame.filterMap _)
    exact hParts.render_eq hm' hm

/-- A blank line in front, a comma and a carriage return behind the states, a long
dash, and the line of labels before the transition, with blanks around it. -/
theorem parse_relaid_labels_first :
    ∃ m m', parse "s2,s1;\nt7:s2-s1,\ns1:p;" = .ok m ∧
      Relaid "s2,s1;\nt7:s2-s1,\ns1:p;" "\ns2,s1,\r\n s1:p;\t\nt7:s2—s1," ∧
      parse "\ns2,s1,\r\n s1:p;\t\nt7:s2—s1," = .ok m' ∧
      parse "\ufeff\ns2,s1,\r\n s1:p;\t\nt7:s2—s1," = .ok m' ∧ m'.render = m.render := by
  have hRelaid : Relaid "s2,s1;\nt7:s2-s1,\ns1:p;" "\ns2,s1,\r\n s1:p;\t\nt7:s2—s1," := by
    have hBefore : "s2,s1;\nt7:s2-s1,\ns1:p;".toList.splitOn '\n' =
        [['s', '2', ',', 's', '1', ';'], ['t', '7', ':', 's', '2', '-', 's', '1', ','],
          ['s', '1', ':', 'p', ';']] := by decide +kernel
    have hAfter : "\ns2,s1,\r\n s1:p;\t\nt7:s2—s1,".toList.splitOn '\n' =
        [[], ['s', '2', ',', 's', '1', ',', '\r'], [' ', 's', '1', ':', 'p', ';', '\t'],
          ['t', '7', ':', 's', '2', '—', 's', '1', ',']] := by decide +kernel
    rw [Relaid, hBefore, hAfter]
    refine .head (@Rearranged.blankLine [] _ [] (by decide)) ?_
    refine .head (@Rearranged.respell [[]] _ _ _
      (@Respelled.terminator ['s', '2', ',', 's', '1'] [] ';' ',' (by decide) (by decide)
        (by simp))) ?_
    refine .head (@Rearranged.respell [[]] _ _ _ (.addReturn _)) ?_
    refine .head (@Rearranged.respell [[], _] _ _ _
      (@Respelled.dash ['t', '7', ':', 's', '2'] ['s', '1', ','] '-' '—' (by decide)
        (by decide))) ?_
    refine .head (@Rearranged.respell [[], _, _] [] _ _
      (@Respelled.pad [' '] ['\t'] _ (by decide) (by decide))) ?_
    exact .single (@Rearranged.permute [[]] _ _ _ (by decide) (by decide) (.swap _ _ []))
  have hRead : (parse "s2,s1;\nt7:s2-s1,\ns1:p;").isOk = true := by decide +kernel
  cases hParse : parse "s2,s1;\nt7:s2-s1,\ns1:p;" with
  | error fault =>
    rw [hParse] at hRead
    cases hRead
  | ok m =>
    obtain ⟨m', hPlain, hMarked, hRender⟩ := parse_relaid (by decide) hParse hRelaid
    exact ⟨m, m', rfl, hRelaid, hPlain, hMarked, hRender⟩

end BranchingTime.Model
