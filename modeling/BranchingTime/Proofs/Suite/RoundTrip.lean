import BranchingTime.Proofs.Formula.Arena
import BranchingTime.Proofs.Formula.RoundTrip
import BranchingTime.Proofs.Ident
import BranchingTime.Proofs.Text.Rows
import BranchingTime.Suite
import Mathlib.Data.List.Forall2

/-!
# BranchingTime — reading written suites

A suite is written with one line for each case: the name of a state, the text of a
formula and whether it is expected to hold, with semicolons between them. Blanks
may stand around each of them, and blank lines and comments between the cases. The
text of a formula has letters, spaces and parentheses only, and starts and ends
with none of the spaces, so it is cut out of its line as it was written, and the
formula is read back from it.

## Results

* `isPhrase_render` — the text of a formula.
* `readCase_of_states` — one line is read as the case that it states.
* `parse_listed_cases` — a suite file is read as its cases, with their lines.
-/

namespace BranchingTime

open Text (trim splitBy isBlank IsPadding IsTrimmed IsWord Line)

-- ---------------------------------------------------------------------------
-- The text of a formula
-- ---------------------------------------------------------------------------

/-- Can the text of a formula have this character? -/
def isPhraseChar (c : Char) : Bool :=
  c.isAlpha || c == ' ' || c == '(' || c == ')'

/-- Letters, spaces and parentheses, with no space at either end. -/
structure IsPhrase (cs : List Char) : Prop where
  filled : cs ≠ []
  isTrimmed : IsTrimmed cs
  plain : cs.all isPhraseChar = true

theorem IsPhrase.notMem {cs : List Char} (h : IsPhrase cs) {c : Char}
    (hOther : isPhraseChar c = false) : c ∉ cs := fun hMem =>
  Bool.false_ne_true (hOther.symm.trans (List.all_eq_true.mp h.plain c hMem))

theorem isPhrase_letters {cs : List Char} (hFilled : cs ≠ []) (hAlpha : cs.all Char.isAlpha = true) :
    IsPhrase cs := by
  have hLetters := List.all_eq_true.mp hAlpha
  have hWord : IsWord cs := ⟨hFilled, fun c hc => by rw [Char.isAlphanum, hLetters c hc]; rfl⟩
  refine ⟨hFilled, hWord.isTrimmed, List.all_eq_true.mpr fun c hc => ?_⟩
  rw [isPhraseChar, hLetters c hc]
  rfl

theorem IsPhrase.join {front middle back : List Char} (hFront : IsPhrase front)
    (hBack : IsPhrase back) (hMiddle : middle.all isPhraseChar = true) :
    IsPhrase (front ++ middle ++ back) where
  filled := List.append_ne_nil_of_right_ne_nil _ hBack.filled
  isTrimmed := hFront.isTrimmed.join hBack.isTrimmed hFront.filled hBack.filled middle
  plain := by rw [List.all_append, List.all_append, hFront.plain, hMiddle, hBack.plain]; rfl

theorem isPhrase_parenthesis {c : Char} (h : c ∈ ['(', ')']) : IsPhrase [c] := by
  have hFilled : isBlank c = false := by
    rcases List.mem_pair.mp h with rfl | rfl <;> decide
  refine ⟨List.cons_ne_nil c [], ⟨?_, ?_⟩, ?_⟩
  · rintro d ⟨⟩
    exact hFilled
  · rintro d ⟨⟩
    exact hFilled
  · rcases List.mem_pair.mp h with rfl | rfl <;> rfl

theorem IsPhrase.grouped {text : String} (h : IsPhrase text.toList) (isNeeded : Bool) :
    IsPhrase (Tree.grouped isNeeded text).toList := by
  cases isNeeded with
  | false => exact h
  | true =>
    have hText : (Tree.grouped true text).toList = ['('] ++ text.toList ++ [')'] := by
      simp [Tree.grouped]
    rw [hText]
    exact (isPhrase_parenthesis (by decide)).join (isPhrase_parenthesis (by decide)) h.plain

/-- The text of a tree whose atoms are words of letters. -/
theorem isPhrase_render (t : Tree) (hNames : ∀ name ∈ t.atoms, Token.IsAtomName name) :
    IsPhrase t.render.toList := by
  induction t with
  | atom name =>
    obtain ⟨hFilled, hAlpha, -⟩ := hNames name (by simp [Tree.atoms])
    exact isPhrase_letters (mt String.toList_eq_nil_iff.mp hFilled) hAlpha
  | not t ih =>
    have hText : (Tree.not t).render.toList =
        "NOT".toList ++ [' '] ++ (Tree.grouped t.isConnective t.render).toList := by
      simp [Tree.render]
    rw [hText]
    exact (isPhrase_letters (by decide) (by decide)).join ((ih hNames).grouped _) rfl
  | connective op t u iht ihu =>
    obtain ⟨hLeft, hRight⟩ := List.forall_mem_append.mp hNames
    have hText : (Tree.connective op t u).render.toList =
        (Tree.grouped t.isLoose t.render).toList ++ ([' '] ++ op.keyword.toList ++ [' ']) ++
          u.render.toList := by
      simp [Tree.render]
    rw [hText]
    refine ((iht hLeft).grouped _).join (ihu hRight) ?_
    cases op <;> decide
  | temporal q p t ih =>
    have hText : (Tree.temporal q p t).render.toList =
        (temporalKeyword q p).toList ++ [' '] ++ (Tree.grouped t.isLoose t.render).toList := by
      simp [Tree.render]
    rw [hText]
    refine IsPhrase.join ?_ ((ih hNames).grouped _) rfl
    cases q <;> cases p <;> exact isPhrase_letters (by decide) (by decide)
  | untl q t u iht ihu =>
    obtain ⟨hLeft, hRight⟩ := List.forall_mem_append.mp hNames
    have hText : (Tree.untl q t u).render.toList =
        q.keyword.toList ++ (['('] ++ (Tree.grouped t.isLoose t.render).toList ++ " U ".toList ++
          (Tree.grouped u.isLoose u.render).toList) ++ [')'] := by
      simp [Tree.render]
    rw [hText]
    refine IsPhrase.join ?_ (isPhrase_parenthesis (by decide)) ?_
    · cases q <;> exact isPhrase_letters (by decide) (by decide)
    · rw [List.all_append, List.all_append, List.all_append, ((iht hLeft).grouped _).plain,
        ((ihu hRight).grouped _).plain]
      decide

namespace Suite

-- ---------------------------------------------------------------------------
-- Written suites
-- ---------------------------------------------------------------------------

/-- A text with padding around it. -/
def IsField (text field : List Char) : Prop :=
  ∃ left right, IsPadding left ∧ IsPadding right ∧ field = left ++ text ++ right

/-- `true` or `false`, each letter small or capital. -/
def SpellsExpected (word : List Char) (expected : Bool) : Prop :=
  List.Forall₂ (fun c letter => c ∈ [letter, letter.toUpper]) word
    (if expected then "true" else "false").toList

instance (word : List Char) (expected : Bool) : Decidable (SpellsExpected word expected) :=
  inferInstanceAs (Decidable (List.Forall₂ _ _ _))

/-- The line states this case: the state, the formula and what is expected. -/
def StatesCase (line : List Char) (c : Expectation) : Prop :=
  ∃ state formula expected word, IsField c.state.name.toList state ∧
    IsField c.formula.render.toList formula ∧ SpellsExpected word c.expected ∧
    IsField word expected ∧ line = [';'].intercalate [state, formula, expected]

/-- Lines, which `k` others precede, state these cases in this order, and each case
has the number of its line. All other lines are blank or comments. -/
inductive ListsCases : Nat → List (List Char) → List Expectation → Prop where
  | nil {k : Nat} : ListsCases k [] []
  | blank {k : Nat} {line : List Char} {lines : List (List Char)} {cases : List Expectation} :
      IsPadding line → ListsCases (k + 1) lines cases → ListsCases k (line :: lines) cases
  | comment {k : Nat} {left rest : List Char} {lines : List (List Char)}
      {cases : List Expectation} : IsPadding left → '\n' ∉ rest → ListsCases (k + 1) lines cases →
      ListsCases k ((left ++ '#' :: rest) :: lines) cases
  | case {k : Nat} {line : List Char} {c : Expectation} {lines : List (List Char)}
      {cases : List Expectation} : StatesCase line c → c.line = k + 1 →
      ListsCases (k + 1) lines cases → ListsCases k (line :: lines) (c :: cases)

/-- The text of the formula can be read back. -/
def IsReadable (f : Formula) : Prop :=
  f.IsObtained ∧ ∀ name ∈ f.atoms, Token.IsAtomName name

-- ---------------------------------------------------------------------------
-- One line
-- ---------------------------------------------------------------------------

theorem IsReadable.isPhrase {f : Formula} (h : IsReadable f) : IsPhrase f.render.toList := by
  obtain ⟨hObtained, hNames⟩ := h
  obtain ⟨t, rfl⟩ := hObtained.exists_layout
  rw [Formula.render_layout]
  exact isPhrase_render t fun name hName => hNames name (Tree.mem_atoms_layout.mpr hName)

theorem IsReadable.parse_render {f : Formula} (h : IsReadable f) :
    Formula.parse f.render = .ok f := by
  obtain ⟨hObtained, hNames⟩ := h
  obtain ⟨t, rfl⟩ := hObtained.exists_layout
  rw [Formula.render_layout]
  exact Formula.parse_render t fun name hName => hNames name (Tree.mem_atoms_layout.mpr hName)

theorem IsField.trim_eq {text field : List Char} (h : IsField text field) (hText : IsTrimmed text) :
    trim field = text := by
  obtain ⟨left, right, hLeft, hRight, rfl⟩ := h
  exact Text.trim_padded hLeft.isBlank_eq_true hRight.isBlank_eq_true hText

/-- A field has the characters of its text, and blanks that end no line. -/
theorem IsField.notMem {text field : List Char} (h : IsField text field) {c : Char}
    (hText : c ∉ text) (hOther : ¬ (isBlank c = true ∧ c ≠ '\n')) : c ∉ field := by
  obtain ⟨left, right, hLeft, hRight, rfl⟩ := h
  rw [List.mem_append, List.mem_append, not_or, not_or]
  exact ⟨⟨fun hc => hOther (hLeft c hc), hText⟩, fun hc => hOther (hRight c hc)⟩

theorem spells_small_letters {word letters : List Char}
    (h : List.Forall₂ (fun c letter => c ∈ [letter, letter.toUpper]) word letters)
    (hSmall : letters.all (fun letter =>
      [letter, letter.toUpper].all fun c => c.toLower == letter && c.isAlpha) = true) :
    word.map Char.toLower = letters ∧ ∀ c ∈ word, c.isAlphanum = true := by
  induction h with
  | nil => exact ⟨rfl, fun _ hc => nomatch hc⟩
  | @cons c letter word letters hLetter _ ih =>
    rw [List.all_cons, Bool.and_eq_true] at hSmall
    obtain ⟨hMap, hAll⟩ := ih hSmall.2
    have hc := List.all_eq_true.mp hSmall.1 c hLetter
    rw [Bool.and_eq_true, beq_iff_eq] at hc
    refine ⟨by rw [List.map_cons, hc.1, hMap], List.forall_mem_cons.mpr ⟨?_, hAll⟩⟩
    rw [Char.isAlphanum, hc.2]
    rfl

theorem SpellsExpected.map_toLower {word : List Char} {expected : Bool}
    (h : SpellsExpected word expected) :
    word.map Char.toLower = (if expected then "true" else "false").toList ∧
      ∀ c ∈ word, c.isAlphanum = true :=
  spells_small_letters h (by cases expected <;> decide)

theorem SpellsExpected.isWord {word : List Char} {expected : Bool}
    (h : SpellsExpected word expected) : IsWord word := by
  refine ⟨?_, h.map_toLower.2⟩
  rintro rfl
  have hLength := congrArg List.length h.map_toLower.1
  cases expected <;> cases hLength

theorem SpellsExpected.readExpected?_eq {word : List Char} {expected : Bool}
    (h : SpellsExpected word expected) : readExpected? word = some expected := by
  rw [readExpected?, h.map_toLower.1]
  cases expected <;> decide

/-- Three fields are cut apart and trimmed, also when the line was trimmed first. -/
theorem map_trim_fields {first second third a b c : List Char} (hFirst : IsField a first)
    (hSecond : IsField b second) (hThird : IsField c third) (ha : IsTrimmed a) (hb : IsTrimmed b)
    (hc : IsTrimmed c) (haFilled : a ≠ []) (hcFilled : c ≠ [])
    (hSemicolon : ∀ text ∈ [a, b, c], ';' ∉ text) :
    (splitBy (· == ';') (trim ([';'].intercalate [first, second, third]))).map trim =
      [a, b, c] := by
  obtain ⟨left, right, hLeft, hRight, rfl⟩ := hFirst
  obtain ⟨left', right', hLeft', hRight', rfl⟩ := hThird
  have hNothing : IsPadding [] := fun _ hMem => nomatch hMem
  have hLine : [';'].intercalate [left ++ a ++ right, second, left' ++ c ++ right'] =
      left ++ (a ++ (right ++ [';'] ++ second ++ [';'] ++ left') ++ c) ++ right' := by
    simp [List.intercalate]
  have hTrim : trim ([';'].intercalate [left ++ a ++ right, second, left' ++ c ++ right']) =
      [';'].intercalate [a ++ right, second, left' ++ c] := by
    rw [hLine, Text.trim_padded hLeft.isBlank_eq_true hRight'.isBlank_eq_true
      (ha.join hc haFilled hcFilled _)]
    simp [List.intercalate]
  have hFirst : IsField a (a ++ right) := ⟨[], right, hNothing, hRight, rfl⟩
  have hThird : IsField c (left' ++ c) := ⟨left', [], hLeft', hNothing, (List.append_nil _).symm⟩
  have hApart : ∀ field ∈ [a ++ right, second, left' ++ c], ';' ∉ field := by
    have hOther : ¬ (isBlank ';' = true ∧ ';' ≠ '\n') := by decide
    simp only [List.forall_mem_cons] at hSemicolon ⊢
    exact ⟨hFirst.notMem hSemicolon.1 hOther, hSecond.notMem hSemicolon.2.1 hOther,
      hThird.notMem hSemicolon.2.2.1 hOther, fun _ hMem => nomatch hMem⟩
  rw [hTrim, Text.splitBy_eq_splitOnP, ← List.splitOn_eq_splitOnP,
    List.splitOn_intercalate ';' hApart (List.cons_ne_nil _ _), List.map_cons, List.map_cons,
    List.map_singleton, hFirst.trim_eq ha, hSecond.trim_eq hb, hThird.trim_eq hc]

/-- A line is read as the case that it states. -/
theorem readCase_of_states {line : List Char} {c : Expectation} (h : StatesCase line c)
    (hFormula : IsReadable c.formula) : readCase ⟨c.line, trim line⟩ = .ok c := by
  obtain ⟨state, formula, expected, word, hState, hText, hSpells, hExpected, rfl⟩ := h
  have hName := c.state.isWord_name
  have hPhrase := hFormula.isPhrase
  have hWord := hSpells.isWord
  have hFields := map_trim_fields hState hText hExpected hName.isTrimmed hPhrase.isTrimmed
    hWord.isTrimmed hName.filled hWord.filled <| by
      simp only [List.forall_mem_cons]
      exact ⟨hName.notMem rfl, hPhrase.notMem rfl, hWord.notMem rfl, fun _ hMem => nomatch hMem⟩
  unfold readCase
  rw [hFields]
  dsimp only
  rw [String.ofList_toList, c.state.ofName?_name]
  dsimp only
  rw [hSpells.readExpected?_eq]
  dsimp only
  rw [String.ofList_toList, hFormula.parse_render]

/-- A stated case starts with the letter of a state. -/
theorem StatesCase.exists_letter {line : List Char} {c : Expectation} (h : StatesCase line c) :
    ∃ left digits, IsPadding left ∧ line = left ++ 's' :: digits := by
  obtain ⟨_, formula, expected, word, ⟨left, right, hLeft, -, rfl⟩, -, -, -, rfl⟩ := h
  exact ⟨left, _, hLeft, by rw [Ident.toList_name]; simp [List.intercalate]; rfl⟩

theorem StatesCase.notMem_newline {line : List Char} {c : Expectation} (h : StatesCase line c)
    (hFormula : IsReadable c.formula) : '\n' ∉ line := by
  obtain ⟨state, formula, expected, word, hState, hText, hSpells, hExpected, rfl⟩ := h
  have hOther : ¬ (isBlank '\n' = true ∧ '\n' ≠ '\n') := fun hBoth => hBoth.2 rfl
  refine Text.notMem_intercalate (by decide) ?_
  simp only [List.forall_mem_cons]
  exact ⟨hState.notMem (c.state.isWord_name.notMem rfl) hOther,
    hText.notMem (hFormula.isPhrase.notMem rfl) hOther,
    hExpected.notMem (hSpells.isWord.notMem rfl) hOther, fun _ hMem => nomatch hMem⟩

-- ---------------------------------------------------------------------------
-- All lines
-- ---------------------------------------------------------------------------

/-- Lines that are all read are read as their cases. -/
theorem readLines_of_forall₂ {lines : List Line} {cases : List Expectation}
    (h : List.Forall₂ (fun line c => readCase line = .ok c) lines cases)
    (seen : List Expectation) : readLines seen lines = ⟨seen.reverse ++ cases, none⟩ := by
  induction h generalizing seen with
  | nil => rw [readLines, List.append_nil]
  | cons hCase _ ih =>
    rw [readLines, hCase]
    dsimp only
    rw [ih, List.reverse_cons, List.append_assoc]
    rfl

section Lines

variable {k : Nat} {lines : List (List Char)} {cases : List Expectation}

theorem ListsCases.forall₂_readCase (h : ListsCases k lines cases)
    (hFormulas : ∀ c ∈ cases, IsReadable c.formula) :
    List.Forall₂ (fun line c => readCase line = .ok c)
      ((Text.filledFrom k lines).filter fun line => !line.isComment) cases := by
  induction h with
  | nil => exact .nil
  | @blank k line lines cases hBlank _ ih =>
    have hAll : line.all isBlank = true := List.all_eq_true.mpr hBlank.isBlank_eq_true
    rw [Text.filledFrom_cons, Text.filledFrom_singleton, if_pos hAll]
    exact ih hFormulas
  | @comment k left rest lines cases hLeft _ _ ih =>
    have hTrim := Text.trim_blanks_cons hLeft.isBlank_eq_true (c := '#') (by decide) rest
    have hFilled : ¬ (left ++ '#' :: rest).all isBlank = true := by
      rw [← Text.isEmpty_trim, hTrim]
      exact Bool.false_ne_true
    rw [Text.filledFrom_cons, Text.filledFrom_singleton, if_neg hFilled, List.filter_append, hTrim]
    exact ih hFormulas
  | @case k line c lines cases hCase hLine _ ih =>
    obtain ⟨hFormula, hOthers⟩ := List.forall_mem_cons.mp hFormulas
    obtain ⟨left, rest, hLeft, hLetter⟩ := hCase.exists_letter
    have hTrim := Text.trim_blanks_cons hLeft.isBlank_eq_true (c := 's') (by decide) rest
    rw [← hLetter] at hTrim
    have hFilled : ¬ line.all isBlank = true := by
      rw [← Text.isEmpty_trim, hTrim]
      exact Bool.false_ne_true
    have hRead := readCase_of_states hCase hFormula
    rw [hLine] at hRead
    rw [Text.filledFrom_cons, Text.filledFrom_singleton, if_neg hFilled, List.filter_append,
      List.filter_cons_of_pos (by rw [Line.isComment, hTrim]; rfl)]
    exact .cons hRead (ih hOthers)

theorem ListsCases.notMem_newline (h : ListsCases k lines cases)
    (hFormulas : ∀ c ∈ cases, IsReadable c.formula) : ∀ line ∈ lines, '\n' ∉ line := by
  have hPadding {left : List Char} (hLeft : IsPadding left) : '\n' ∉ left := fun hMem =>
    (hLeft '\n' hMem).2 rfl
  induction h with
  | nil => exact fun _ hMem => nomatch hMem
  | blank hBlank _ ih => exact List.forall_mem_cons.mpr ⟨hPadding hBlank, ih hFormulas⟩
  | comment hLeft hRest _ ih =>
    refine List.forall_mem_cons.mpr ⟨?_, ih hFormulas⟩
    rw [List.mem_append, List.mem_cons, not_or, not_or]
    exact ⟨hPadding hLeft, by decide, hRest⟩
  | case hCase _ _ ih =>
    obtain ⟨hFormula, hOthers⟩ := List.forall_mem_cons.mp hFormulas
    exact List.forall_mem_cons.mpr ⟨hCase.notMem_newline hFormula, ih hOthers⟩

/-- No line starts with a byte order mark. -/
theorem ListsCases.head?_ne_mark (h : ListsCases k lines cases) :
    ∀ line ∈ lines, line.head? ≠ some '\ufeff' := by
  have hPadding {left : List Char} (hLeft : IsPadding left) : left.head? ≠ some '\ufeff' :=
    fun hFirst => absurd (hLeft _ (List.mem_of_head? hFirst)).1 (by decide)
  have hBehind {left rest : List Char} {c : Char} (hLeft : IsPadding left) (hc : c ≠ '\ufeff') :
      (left ++ c :: rest).head? ≠ some '\ufeff' := by
    cases left with
    | nil => exact fun hFirst => hc (Option.some.inj hFirst)
    | cons d blanks => exact fun hFirst => hPadding hLeft hFirst
  induction h with
  | nil => exact fun _ hMem => nomatch hMem
  | blank hBlank _ ih => exact List.forall_mem_cons.mpr ⟨hPadding hBlank, ih⟩
  | comment hLeft _ _ ih => exact List.forall_mem_cons.mpr ⟨hBehind hLeft (by decide), ih⟩
  | case hCase _ _ ih =>
    obtain ⟨left, rest, hLeft, rfl⟩ := hCase.exists_letter
    exact List.forall_mem_cons.mpr ⟨hBehind hLeft (by decide), ih⟩

end Lines

theorem head?_intercalate_ne {lines : List (List Char)} {c : Char} (hc : c ≠ '\n')
    (h : ∀ line ∈ lines, line.head? ≠ some c) : (['\n'].intercalate lines).head? ≠ some c := by
  cases lines with
  | nil => exact fun hFirst => nomatch hFirst
  | cons line rest =>
    have hLine := h line List.mem_cons_self
    cases rest with
    | nil => rwa [List.intercalate_singleton]
    | cons next others =>
      rw [List.intercalate_cons_cons]
      cases line with
      | nil => exact fun hFirst => hc (Option.some.inj hFirst).symm
      | cons d more => exact hLine

/-- **Suites are read back.** Take any cases whose formulas have words of letters as
atoms, and lines that state them in their order, with blank lines and comments
anywhere between them. The text of these lines, with a byte order mark in front or
without, is read as a suite of exactly these cases, each with its formula and the
number of its line. -/
theorem parse_listed_cases {text : String} {lines : List (List Char)} {cases : List Expectation}
    (hText : text.toList = ['\n'].intercalate lines ∨
      text.toList = '\ufeff' :: ['\n'].intercalate lines)
    (hLines : ListsCases 0 lines cases) (hFormulas : ∀ c ∈ cases, IsReadable c.formula) :
    parse text = .ok ⟨cases⟩ := by
  have hContent : Text.dropByteOrderMark text.toList = ['\n'].intercalate lines := by
    rcases hText with hText | hText
    · rw [hText]
      exact Text.dropByteOrderMark_eq_self (head?_intercalate_ne (by decide) hLines.head?_ne_mark)
    · rw [hText]
      rfl
  have hFilled : Text.filledLines (['\n'].intercalate lines) = Text.filledFrom 0 lines := by
    rw [Text.filledLines_eq_filledFrom]
    cases lines with
    | nil => rfl
    | cons line rest =>
      rw [List.splitOn_intercalate '\n' (hLines.notMem_newline hFormulas) (List.cons_ne_nil _ _)]
  have hRead : readLines [] (caseLines text) = ⟨cases, none⟩ := by
    rw [caseLines, hContent, hFilled]
    exact readLines_of_forall₂ (hLines.forall₂_readCase hFormulas) []
  rw [parse, read, hRead]

/-- A byte order mark, a comment, a blank line, and two cases with blanks and capital
letters in them, of which the first one stands on line 3. -/
theorem parse_listed_cases_behind_comment :
    let always := ((Formula.atom "p").connect .and (.atom "q")).temporal .all .always
    let cases : List Expectation :=
      [⟨3, ⟨1⟩, always, true⟩, ⟨4, ⟨2⟩, (Formula.atom "p").not, false⟩]
    let lines := ["# cases".toList, [], " s1 ; AG (p AND q) ;TrUe\r".toList,
      "s2;NOT p;\tFALSE".toList]
    ListsCases 0 lines cases ∧ (∀ c ∈ cases, IsReadable c.formula) ∧
      parse "\ufeff# cases\n\n s1 ; AG (p AND q) ;TrUe\r\ns2;NOT p;\tFALSE" = .ok ⟨cases⟩ := by
  intro always cases lines
  let t : Tree := .temporal .all .always (.connective .and (.atom "p") (.atom "q"))
  have hAlways : always.render = "AG (p AND q)" := Formula.render_layout t
  have hNot : (Formula.atom "p").not.render = "NOT p" := Formula.render_layout (.not (.atom "p"))
  have hFirst : StatesCase " s1 ; AG (p AND q) ;TrUe\r".toList ⟨3, ⟨1⟩, always, true⟩ := by
    refine ⟨" s1 ".toList, " AG (p AND q) ".toList, "TrUe\r".toList, "TrUe".toList,
      ⟨[' '], [' '], by decide, by decide, by decide⟩,
      ⟨[' '], [' '], by decide, by decide, ?_⟩, by decide,
      ⟨[], ['\r'], by decide, by decide, by decide⟩, by decide⟩
    dsimp only
    rw [hAlways]
    decide
  have hSecond : StatesCase "s2;NOT p;\tFALSE".toList ⟨4, ⟨2⟩, (Formula.atom "p").not, false⟩ := by
    refine ⟨"s2".toList, "NOT p".toList, "\tFALSE".toList, "FALSE".toList,
      ⟨[], [], by decide, by decide, by decide⟩, ⟨[], [], by decide, by decide, ?_⟩, by decide,
      ⟨['\t'], [], by decide, by decide, by decide⟩, by decide⟩
    dsimp only
    rw [hNot]
    decide
  have hLines : ListsCases 0 lines cases :=
    @ListsCases.comment 0 [] " cases".toList _ _ (by decide) (by decide)
      (.blank (by decide) (.case hFirst rfl (.case hSecond rfl .nil)))
  have hReadable : ∀ c ∈ cases, IsReadable c.formula := by
    have hNames (t : Tree) (h : ∀ name ∈ t.atoms, Token.IsAtomName name) :
        ∀ name ∈ t.layout.atoms, Token.IsAtomName name := fun name hName =>
      h name (Tree.mem_atoms_layout.mp hName)
    simp only [cases, List.forall_mem_cons]
    exact ⟨⟨.temporal .all .always (.connect .and (.atom "p") (.atom "q")), hNames t (by decide)⟩,
      ⟨.not (.atom "p"), hNames (.not (.atom "p")) (by decide)⟩, fun _ hc => nomatch hc⟩
  exact ⟨hLines, hReadable, parse_listed_cases (.inr (by decide +kernel)) hLines hReadable⟩

end Suite

end BranchingTime
