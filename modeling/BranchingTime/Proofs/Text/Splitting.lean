import BranchingTime.Text.Line

/-!
# BranchingTime — trimming and cutting texts

Readers cut a text at separators and trim the pieces. What they get is told
from the shape of the text: blanks, a trimmed piece, blanks; a piece without a
separator, a separator, the rest; lines without line feeds, each ended by one.

## Results

* `trim_padded`, `isTrimmed_trim` — trimming takes away the blanks around a text
  and nothing else.
* `isTrimmed_intercalate` — so words with separators between them stay as they
  are.
* `splitFirst?_eq_some_iff` — cutting at the first separator.
* `physicalLines_ended` — lines that are each ended by a line feed.
-/

namespace BranchingTime.Text

-- ---------------------------------------------------------------------------
-- Trimming
-- ---------------------------------------------------------------------------

/-- No blank stands at either end. -/
structure IsTrimmed (cs : List Char) : Prop where
  first : ∀ c, cs.head? = some c → isBlank c = false
  last : ∀ c, cs.getLast? = some c → isBlank c = false

/-- Blanks that do not end a line. -/
def IsPadding (cs : List Char) : Prop :=
  ∀ c ∈ cs, isBlank c = true ∧ c ≠ '\n'

instance (cs : List Char) : Decidable (IsPadding cs) :=
  decidable_of_iff (cs.all fun c => isBlank c && c != '\n') (by simp [IsPadding])

theorem IsPadding.isBlank_eq_true {cs : List Char} (h : IsPadding cs) : ∀ c ∈ cs, isBlank c = true :=
  fun c hc => (h c hc).1

theorem isBlank_nothing : ∀ c ∈ ([] : List Char), isBlank c = true :=
  fun _ hc => (nomatch hc)

theorem trimLeft_eq_self {cs : List Char} (h : ∀ c, cs.head? = some c → isBlank c = false) :
    trimLeft cs = cs := by
  cases cs with
  | nil => rfl
  | cons c rest =>
    have hFirst := h c rfl
    exact List.dropWhile_cons_of_neg (by rw [hFirst]; exact Bool.false_ne_true)

theorem trimRight_eq_reverse (cs : List Char) : trimRight cs = (trimLeft cs.reverse).reverse :=
  rfl

theorem trimRight_eq_self {cs : List Char} (h : ∀ c, cs.getLast? = some c → isBlank c = false) :
    trimRight cs = cs := by
  have hFirst : ∀ c, cs.reverse.head? = some c → isBlank c = false := by
    intro c hc
    rw [List.head?_reverse] at hc
    exact h c hc
  rw [trimRight_eq_reverse, trimLeft_eq_self hFirst, List.reverse_reverse]

theorem IsTrimmed.trim_eq {cs : List Char} (h : IsTrimmed cs) : trim cs = cs := by
  rw [trim, trimLeft_eq_self h.first, trimRight_eq_self h.last]

theorem trimLeft_append_of_blank {blanks : List Char} (h : ∀ c ∈ blanks, isBlank c = true)
    (cs : List Char) : trimLeft (blanks ++ cs) = trimLeft cs :=
  List.dropWhile_append_of_pos h

theorem trimRight_append_of_blank {blanks : List Char} (h : ∀ c ∈ blanks, isBlank c = true)
    (cs : List Char) : trimRight (cs ++ blanks) = trimRight cs := by
  have hReverse : ∀ c ∈ blanks.reverse, isBlank c = true := fun c hc =>
    h c (List.mem_reverse.mp hc)
  rw [trimRight_eq_reverse, List.reverse_append, trimLeft_append_of_blank hReverse,
    ← trimRight_eq_reverse]

/-- Blanks before the first filled character go, all else stays. -/
theorem trimLeft_append_cons {c : Char} (hc : isBlank c = false) (before after : List Char) :
    trimLeft (before ++ c :: after) = trimLeft before ++ c :: after := by
  have hStops : (c :: after).dropWhile isBlank = c :: after :=
    List.dropWhile_cons_of_neg (by rw [hc]; exact Bool.false_ne_true)
  rw [trimLeft, List.dropWhile_append, hStops, trimLeft]
  cases before.dropWhile isBlank with
  | nil => rfl
  | cons d rest => rfl

/-- Blanks after the last filled character go, all else stays. -/
theorem trimRight_append_cons {c : Char} (hc : isBlank c = false) (before after : List Char) :
    trimRight (before ++ c :: after) = before ++ c :: trimRight after := by
  have hStops : (c :: before.reverse).dropWhile isBlank = c :: before.reverse :=
    List.dropWhile_cons_of_neg (by rw [hc]; exact Bool.false_ne_true)
  rw [trimRight, List.reverse_append, List.reverse_cons, List.append_assoc,
    List.singleton_append, List.dropWhile_append, trimRight]
  cases hRest : after.reverse.dropWhile isBlank with
  | nil =>
    rw [List.isEmpty_nil, if_pos rfl, hStops]
    simp
  | cons d rest => simp

/-- The first filled character of a text is the first one that is left. -/
theorem trim_blanks_cons {blanks : List Char} (h : ∀ c ∈ blanks, isBlank c = true) {c : Char}
    (hc : isBlank c = false) (rest : List Char) : trim (blanks ++ c :: rest) = c :: trimRight rest := by
  have hFirst : trimLeft (c :: rest) = c :: rest :=
    List.dropWhile_cons_of_neg (by rw [hc]; exact Bool.false_ne_true)
  rw [trim, trimLeft_append_of_blank h, hFirst]
  exact trimRight_append_cons hc [] rest

/-- A text that ends with a filled character loses nothing. -/
theorem trimRight_append_of_isTrimmed {cs : List Char} (hFilled : cs ≠ []) (h : IsTrimmed cs)
    (before : List Char) : trimRight (before ++ cs) = before ++ cs := by
  refine trimRight_eq_self fun c hc => h.last c ?_
  rwa [List.getLast?_append, List.getLast?_eq_some_getLast hFilled, Option.some_or,
    ← List.getLast?_eq_some_getLast hFilled] at hc

/-- Whatever stands between two trimmed texts is not at the ends. -/
theorem IsTrimmed.join {front back : List Char} (hFront : IsTrimmed front) (hBack : IsTrimmed back)
    (hFirst : front ≠ []) (hLast : back ≠ []) (middle : List Char) :
    IsTrimmed (front ++ middle ++ back) where
  first c hc := by
    obtain ⟨d, rest, rfl⟩ := List.exists_cons_of_ne_nil hFirst
    exact hFront.first c hc
  last c hc := by
    rw [List.getLast?_append, List.getLast?_eq_some_getLast hLast, Option.some_or,
      ← List.getLast?_eq_some_getLast hLast] at hc
    exact hBack.last c hc

/-- Trimming takes away the blanks around a trimmed text. -/
theorem trim_padded {left cs right : List Char} (hLeft : ∀ c ∈ left, isBlank c = true)
    (hRight : ∀ c ∈ right, isBlank c = true) (h : IsTrimmed cs) :
    trim (left ++ cs ++ right) = cs := by
  cases cs with
  | nil =>
    have hAll : ∀ c ∈ left ++ right, isBlank c = true := by
      intro c hc
      rcases List.mem_append.mp hc with hc | hc
      · exact hLeft c hc
      · exact hRight c hc
    have hNothing := trimLeft_append_of_blank hAll []
    rw [List.append_nil] at hNothing
    rw [List.append_nil, trim, hNothing]
    rfl
  | cons c rest =>
    have hFirst : trimLeft (c :: rest ++ right) = c :: rest ++ right :=
      trimLeft_eq_self h.first
    rw [trim, List.append_assoc, trimLeft_append_of_blank hLeft, hFirst,
      trimRight_append_of_blank hRight, trimRight_eq_self h.last]

theorem first_trimLeft (cs : List Char) {c : Char} (h : (trimLeft cs).head? = some c) :
    isBlank c = false := by
  have hFirst := List.head?_dropWhile_not isBlank cs
  rw [trimLeft] at h
  rw [h] at hFirst
  exact hFirst

theorem last_trimRight (cs : List Char) {c : Char} (h : (trimRight cs).getLast? = some c) :
    isBlank c = false := by
  rw [trimRight_eq_reverse, List.getLast?_reverse] at h
  exact first_trimLeft cs.reverse h

theorem exists_blanks_left (cs : List Char) :
    ∃ blanks, (∀ c ∈ blanks, isBlank c = true) ∧ cs = blanks ++ trimLeft cs :=
  ⟨cs.takeWhile isBlank, List.all_eq_true.mp List.all_takeWhile,
    List.takeWhile_append_dropWhile.symm⟩

theorem exists_blanks_right (cs : List Char) :
    ∃ blanks, (∀ c ∈ blanks, isBlank c = true) ∧ cs = trimRight cs ++ blanks := by
  obtain ⟨blanks, hBlanks, hReverse⟩ := exists_blanks_left cs.reverse
  refine ⟨blanks.reverse, fun c hc => hBlanks c (List.mem_reverse.mp hc), ?_⟩
  rw [trimRight_eq_reverse, ← List.reverse_append, ← hReverse, List.reverse_reverse]

theorem isTrimmed_trim (cs : List Char) : IsTrimmed (trim cs) := by
  constructor
  case first =>
    intro c hc
    obtain ⟨blanks, -, hRight⟩ := exists_blanks_right (trimLeft cs)
    apply first_trimLeft cs
    rw [hRight, List.head?_append, ← trim, hc]
    rfl
  case last => exact fun c hc => last_trimRight (trimLeft cs) hc

theorem exists_blanks_around (cs : List Char) :
    ∃ left right, (∀ c ∈ left, isBlank c = true) ∧ (∀ c ∈ right, isBlank c = true) ∧
      cs = left ++ trim cs ++ right := by
  obtain ⟨left, hLeft, hFront⟩ := exists_blanks_left cs
  obtain ⟨right, hRight, hBack⟩ := exists_blanks_right (trimLeft cs)
  refine ⟨left, right, hLeft, hRight, ?_⟩
  rw [List.append_assoc, trim, ← hBack, ← hFront]

/-- Blanks around a text do not matter to trimming. -/
theorem trim_surrounded {left right : List Char} (hLeft : ∀ c ∈ left, isBlank c = true)
    (hRight : ∀ c ∈ right, isBlank c = true) (cs : List Char) :
    trim (left ++ cs ++ right) = trim cs := by
  obtain ⟨left', right', hLeft', hRight', hAround⟩ := exists_blanks_around cs
  have hBefore : ∀ c ∈ left ++ left', isBlank c = true := List.forall_mem_append.mpr ⟨hLeft, hLeft'⟩
  have hBehind : ∀ c ∈ right' ++ right, isBlank c = true :=
    List.forall_mem_append.mpr ⟨hRight', hRight⟩
  have hWhole : left ++ cs ++ right = left ++ left' ++ trim cs ++ (right' ++ right) := by
    calc left ++ cs ++ right = left ++ (left' ++ trim cs ++ right') ++ right := by rw [← hAround]
      _ = left ++ left' ++ trim cs ++ (right' ++ right) := by simp
  rw [hWhole, trim_padded hBefore hBehind (isTrimmed_trim cs)]

theorem trim_append_of_blank {blanks : List Char} (h : ∀ c ∈ blanks, isBlank c = true)
    (cs : List Char) : trim (cs ++ blanks) = trim cs :=
  trim_surrounded isBlank_nothing h cs

/-- A character that trimming takes away is a blank. -/
theorem mem_trim_or_isBlank {cs : List Char} {c : Char} (h : c ∈ cs) :
    c ∈ trim cs ∨ isBlank c = true := by
  obtain ⟨left, right, hLeft, hRight, hAround⟩ := exists_blanks_around cs
  rw [hAround, List.mem_append, List.mem_append] at h
  rcases h with (h | h) | h
  · exact .inr (hLeft c h)
  · exact .inl h
  · exact .inr (hRight c h)

/-- Nothing but blanks is trimmed to nothing. -/
theorem isEmpty_trim (cs : List Char) : (trim cs).isEmpty = cs.all isBlank := by
  rw [Bool.eq_iff_iff, List.isEmpty_iff, List.all_eq_true]
  constructor
  · intro hTrim c hc
    rcases mem_trim_or_isBlank hc with hMem | hBlank
    · rw [hTrim] at hMem
      cases hMem
    · exact hBlank
  · intro hAll
    have hNothing : IsTrimmed [] := ⟨fun _ hc => (nomatch hc), fun _ hc => (nomatch hc)⟩
    have hPadded := trim_padded hAll isBlank_nothing hNothing
    rwa [List.append_nil, List.append_nil] at hPadded

/-- A text without blanks in front starts as its trimmed form does. -/
theorem head?_of_head?_trim {cs : List Char} {c : Char}
    (hFirst : ∀ d, cs.head? = some d → isBlank d = false) (h : (trim cs).head? = some c) :
    cs.head? = some c := by
  obtain ⟨blanks, -, hBack⟩ := exists_blanks_right cs
  rw [trim, trimLeft_eq_self hFirst] at h
  rw [hBack, List.head?_append, h]
  rfl

-- ---------------------------------------------------------------------------
-- Words
-- ---------------------------------------------------------------------------

/-- One or more letters and digits. -/
structure IsWord (cs : List Char) : Prop where
  filled : cs ≠ []
  isAlphanum : ∀ c ∈ cs, c.isAlphanum = true

/-- No letter and no digit is a blank. -/
theorem isBlank_of_isAlphanum {c : Char} (h : c.isAlphanum = true) : isBlank c = false := by
  have hCode : 48 ≤ c.toNat ∧ c.toNat ≤ 122 := by
    unfold Char.isAlphanum Char.isAlpha Char.isUpper Char.isLower Char.isDigit at h
    simp only [Bool.or_eq_true, Bool.and_eq_true, decide_eq_true_eq, UInt32.le_iff_toNat_le,
      ge_iff_le] at h
    have hDigits : '0'.val.toNat = 48 ∧ '9'.val.toNat = 57 := ⟨rfl, rfl⟩
    have hUpper : 'A'.val.toNat = 65 ∧ 'Z'.val.toNat = 90 := ⟨rfl, rfl⟩
    have hLower : 'a'.val.toNat = 97 ∧ 'z'.val.toNat = 122 := ⟨rfl, rfl⟩
    have hVal : c.val.toNat = c.toNat := rfl
    omega
  rw [isBlank, List.any_eq_false]
  intro range hRange
  simp only [blankRanges, List.mem_cons, List.not_mem_nil, or_false] at hRange
  rw [Bool.and_eq_true, decide_eq_true_eq, decide_eq_true_eq]
  rcases hRange with rfl | rfl | rfl | rfl | rfl | rfl | rfl | rfl | rfl | rfl <;> omega

theorem IsWord.notMem {cs : List Char} (h : IsWord cs) {c : Char} (hOther : c.isAlphanum = false) :
    c ∉ cs := fun hMem =>
  Bool.false_ne_true (hOther.symm.trans (h.isAlphanum c hMem))

theorem IsWord.isTrimmed {cs : List Char} (h : IsWord cs) : IsTrimmed cs where
  first _ hc := isBlank_of_isAlphanum (h.isAlphanum _ (List.mem_of_head? hc))
  last _ hc := isBlank_of_isAlphanum (h.isAlphanum _ (List.mem_of_getLast? hc))

/-- In a text that is a word with blanks around it, there are blanks, letters and
digits only. -/
theorem notMem_of_isWord_trim {cs : List Char} (h : IsWord (trim cs)) {c : Char}
    (hBlank : isBlank c = false) (hOther : c.isAlphanum = false) : c ∉ cs := by
  intro hMem
  rcases mem_trim_or_isBlank hMem with hTrim | hIs
  · exact h.notMem hOther hTrim
  · exact Bool.false_ne_true (hBlank.symm.trans hIs)

theorem exists_intercalate_cons (separator word : List Char) (words : List (List Char)) :
    ∃ rest, separator.intercalate (word :: words) = word ++ rest := by
  cases words with
  | nil => exact ⟨[], by rw [List.intercalate_singleton, List.append_nil]⟩
  | cons next others =>
    exact ⟨_, by rw [List.intercalate_cons_cons, List.append_assoc]⟩

theorem intercalate_ne_nil (separator : List Char) {word : List Char} (h : word ≠ [])
    (words : List (List Char)) : separator.intercalate (word :: words) ≠ [] := by
  obtain ⟨rest, hRest⟩ := exists_intercalate_cons separator word words
  rw [hRest]
  exact List.append_ne_nil_of_left_ne_nil h rest

theorem notMem_intercalate {α : Type} {separator : List α} {words : List (List α)} {c : α}
    (hSeparator : c ∉ separator) (h : ∀ word ∈ words, c ∉ word) :
    c ∉ separator.intercalate words := by
  induction words with
  | nil => exact List.not_mem_nil
  | cons word rest ih =>
    obtain ⟨hWord, hRest⟩ := List.forall_mem_cons.mp h
    cases rest with
    | nil =>
      rw [List.intercalate_singleton]
      exact hWord
    | cons next rest =>
      rw [List.intercalate_cons_cons, List.mem_append, List.mem_append, not_or, not_or]
      exact ⟨⟨hWord, hSeparator⟩, ih hRest⟩

/-- Words with separators between them start and end with a word. -/
theorem isTrimmed_intercalate {separator : List Char} {words : List (List Char)}
    (h : ∀ word ∈ words, IsWord word) : IsTrimmed (separator.intercalate words) := by
  induction words with
  | nil => exact ⟨fun _ hc => (nomatch hc), fun _ hc => (nomatch hc)⟩
  | cons word rest ih =>
    obtain ⟨hWord, hRest⟩ := List.forall_mem_cons.mp h
    cases rest with
    | nil =>
      rw [List.intercalate_singleton]
      exact hWord.isTrimmed
    | cons next rest =>
      have hNext := (List.forall_mem_cons.mp hRest).1
      have hFilled := intercalate_ne_nil separator hNext.filled rest
      rw [List.intercalate_cons_cons]
      exact hWord.isTrimmed.join (ih hRest) hWord.filled hFilled separator

-- ---------------------------------------------------------------------------
-- Cutting
-- ---------------------------------------------------------------------------

theorem splitBy_eq_splitOnP (isSeparator : Char → Bool) (cs : List Char) :
    splitBy isSeparator cs = cs.splitOnP isSeparator := by
  induction cs with
  | nil => rfl
  | cons c rest ih =>
    rw [List.splitOnP_cons_eq_if_modifyHead, ← ih]
    rfl

/-- A text is cut at a separator that no other one stands before. -/
theorem splitFirst?_eq_some_iff {isSeparator : Char → Bool} {cs before after : List Char} :
    splitFirst? isSeparator cs = some (before, after) ↔
      (∀ c ∈ before, isSeparator c = false) ∧
        ∃ c, isSeparator c = true ∧ cs = before ++ c :: after := by
  unfold splitFirst?
  constructor
  · intro h
    split at h
    · cases h
    · rename_i c rest hRest
      cases h
      have hFirst := List.head?_dropWhile_not (!isSeparator ·) cs
      rw [hRest] at hFirst
      have hBefore := List.all_eq_true.mp (List.all_takeWhile (l := cs) (p := (!isSeparator ·)))
      refine ⟨fun d hd => ?_, c, ?_, ?_⟩
      · have hNot := hBefore d hd
        rwa [Bool.not_eq_true'] at hNot
      · simpa using hFirst
      · rw [← hRest, List.takeWhile_append_dropWhile]
  · rintro ⟨hBefore, c, hc, rfl⟩
    have hPass : ∀ d ∈ before, (!isSeparator d) = true := by
      intro d hd
      rw [hBefore d hd]
      rfl
    rw [List.dropWhile_append_of_pos hPass, List.takeWhile_append_of_pos hPass]
    simp [hc]

-- ---------------------------------------------------------------------------
-- Lines
-- ---------------------------------------------------------------------------

/-- Pieces without separators, each ended by one, and what comes behind the last. -/
theorem splitOn_ended {α : Type} [BEq α] [LawfulBEq α] {separator : α} {pieces : List (List α)}
    {last : List α} (h : ∀ piece ∈ pieces, separator ∉ piece) (hLast : separator ∉ last) :
    (pieces.flatMap (· ++ [separator]) ++ last).splitOn separator = pieces ++ [last] := by
  have hApart : ∀ {piece : List α}, separator ∉ piece → ∀ c ∈ piece, (c == separator) = false :=
    fun hNot c hc => beq_false_of_ne fun hEq => hNot (hEq ▸ hc)
  induction pieces with
  | nil => exact List.splitOnP_eq_singleton (hApart hLast)
  | cons piece rest ih =>
    obtain ⟨hPiece, hRest⟩ := List.forall_mem_cons.mp h
    rw [List.flatMap_cons, List.append_assoc, List.append_assoc, List.singleton_append,
      List.splitOn, List.splitOnP_append_cons_of_forall_mem (hApart hPiece) _ BEq.rfl,
      ← List.splitOn, ih hRest, List.cons_append]

/-- Lines without line feeds, each ended by one, are the lines of the text. -/
theorem physicalLines_ended {lines : List (List Char)} (h : ∀ line ∈ lines, '\n' ∉ line) :
    physicalLines (lines.flatMap (· ++ ['\n'])) = lines := by
  have hLines := splitOn_ended h List.not_mem_nil
  rw [List.append_nil] at hLines
  rw [physicalLines, splitBy_eq_splitOnP, ← List.splitOn, hLines]
  simp

theorem map_text_filledLines (text : List Char) :
    (filledLines text).map Line.text =
      ((physicalLines text).map trim).filter fun line => !line.isEmpty := by
  have hTexts : (lines text).map Line.text = (physicalLines text).map trim := by
    rw [lines, List.map_map]
    calc _ = ((physicalLines text).zipIdx.map Prod.fst).map trim := by
          rw [List.map_map]
          rfl
      _ = (physicalLines text).map trim := by rw [List.zipIdx_map_fst]
  rw [filledLines, ← hTexts, List.filter_map]
  rfl

/-- The filled lines are the pieces between line feeds that hold more than
blanks, trimmed. -/
theorem map_text_filledLines_eq_splitOn (text : List Char) :
    (filledLines text).map Line.text =
      ((text.splitOn '\n').filter fun line => !line.all isBlank).map trim := by
  have hPhysical : (physicalLines text).filter (fun line => !line.all isBlank) =
      (text.splitOn '\n').filter fun line => !line.all isBlank := by
    rw [List.splitOn_eq_splitOnP, ← splitBy_eq_splitOnP, physicalLines]
    split
    · rename_i hLast
      obtain ⟨pieces, hPieces⟩ := List.getLast?_eq_some_iff.mp hLast
      rw [hPieces, List.dropLast_concat, List.filter_append]
      exact (List.append_nil _).symm
    · rfl
  rw [map_text_filledLines, List.filter_map, ← hPhysical]
  simp only [Function.comp_def, isEmpty_trim]

theorem isTrimmed_of_mem_filledLines {text : List Char} {line : Line}
    (h : line ∈ filledLines text) : IsTrimmed line.text := by
  obtain ⟨hLine, -⟩ := List.mem_filter.mp h
  obtain ⟨⟨piece, k⟩, -, rfl⟩ := List.mem_map.mp hLine
  exact isTrimmed_trim piece

theorem dropByteOrderMark_eq_iff {text rest : List Char} :
    dropByteOrderMark text = rest ↔
      text = '\ufeff' :: rest ∨ (text.head? ≠ some '\ufeff' ∧ text = rest) := by
  unfold dropByteOrderMark
  split
  · simp
  · rename_i hOther
    have hHead : text.head? ≠ some '\ufeff' := by
      intro hMark
      obtain ⟨after, rfl⟩ := List.head?_eq_some_iff.mp hMark
      exact hOther after rfl
    rw [or_iff_right (hOther rest), and_iff_right hHead]

theorem dropByteOrderMark_eq_self {text : List Char} (h : text.head? ≠ some '\ufeff') :
    dropByteOrderMark text = text :=
  dropByteOrderMark_eq_iff.mpr (.inr ⟨h, rfl⟩)

end BranchingTime.Text
