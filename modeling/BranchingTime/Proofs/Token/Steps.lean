import BranchingTime.Proofs.Token.Scanning
import Mathlib.Tactic.ByContra
import Mathlib.Tactic.Tauto

/-!
# BranchingTime — one step of the scanner

A step skips blanks and reads a token behind them. `Cursor.Moves` says what a step
may do, without the scanner: the characters that are passed are the blanks and the
text of the token, the offsets count their bytes, and a word is not left before
its last letter. There is always one such step, and it is the one that is made.

## Results

* `Cursor.moves_next` — what is done is such a step.
* `Cursor.Moves.next_eq` — such a step is what is done.
-/

namespace BranchingTime

-- ---------------------------------------------------------------------------
-- The text of a token
-- ---------------------------------------------------------------------------

namespace Token

/-- The text of a token. -/
def spelling : Token → String
  | atom name => name
  | not => "NOT"
  | connective op => op.keyword
  | temporal q p => temporalKeyword q p
  | quantifier q => q.keyword
  | untl => "U"
  | leftParen => "("
  | rightParen => ")"
  | invalid c => String.singleton c
  | endOfText => ""

/-- Is the token made of letters: an atom or a keyword? -/
def isWord : Token → Bool
  | leftParen => false
  | rightParen => false
  | invalid _ => false
  | endOfText => false
  | _ => true

/-- The token is the one that its text stands for. -/
structure IsProper (token : Token) : Prop where
  /-- Words are letters, and the keywords are those that spell one exactly. -/
  word : token.isWord = true →
    token.spelling ≠ "" ∧ (∀ c ∈ token.spelling.toList, c.isAlpha = true) ∧
      (token ∈ keywords.map Prod.snd ↔ token.spelling ∈ keywords.map Prod.fst)
  /-- No other token could have been made of an invalid character. -/
  invalid : ∀ c, token = .invalid c →
    c.isAlpha = false ∧ c ∉ ['(', ')'] ∧ c ∉ [' ', '\t', '\r', '\n', '\x0c']

theorem isSpacing_iff {c : Char} : isSpacing c = true ↔ c ∈ [' ', '\t', '\r', '\n', '\x0c'] := by
  simp only [isSpacing, Bool.or_eq_true, beq_iff_eq, List.mem_cons, List.not_mem_nil, or_false]
  tauto

theorem spelling_ofWord (word : String) : (ofWord word).spelling = word := by
  by_cases hWord : word ∈ keywords.map Prod.fst
  · have hKeywords : ∀ entry ∈ keywords, (ofWord entry.1).spelling = entry.1 := by decide
    obtain ⟨entry, hEntry, rfl⟩ := List.mem_map.mp hWord
    exact hKeywords entry hEntry
  · rw [ofWord_of_notMem hWord]
    rfl

theorem isWord_ofWord (word : String) : (ofWord word).isWord = true := by
  rcases ofWord_cases word with hKeyword | ⟨-, hAtom⟩
  · have hKeywords : ∀ token ∈ keywords.map Prod.snd, token.isWord = true := by decide
    exact hKeywords _ hKeyword
  · rw [hAtom]
    rfl

theorem ofWord_mem_keywords_iff (word : String) :
    ofWord word ∈ keywords.map Prod.snd ↔ word ∈ keywords.map Prod.fst := by
  constructor
  · intro hToken
    by_contra hWord
    rw [ofWord_of_notMem hWord] at hToken
    simp [keywords] at hToken
  · intro hWord
    have hKeywords : ∀ entry ∈ keywords, ofWord entry.1 ∈ keywords.map Prod.snd := by decide
    obtain ⟨entry, hEntry, rfl⟩ := List.mem_map.mp hWord
    exact hKeywords entry hEntry

theorem isProper_ofWord {word : String} (hFilled : word ≠ "")
    (hAlpha : ∀ c ∈ word.toList, c.isAlpha = true) : (ofWord word).IsProper where
  word _ := by
    rw [spelling_ofWord]
    exact ⟨hFilled, hAlpha, ofWord_mem_keywords_iff word⟩
  invalid c hInvalid := by
    have hWord := isWord_ofWord word
    rw [hInvalid] at hWord
    cases hWord

/-- A word is the token that its letters stand for. -/
theorem IsProper.ofWord_spelling {token : Token} (h : token.IsProper)
    (hWord : token.isWord = true) : ofWord token.spelling = token := by
  cases token with
  | atom name =>
    obtain ⟨-, -, hKeyword⟩ := h.word hWord
    refine ofWord_of_notMem fun hName => ?_
    have hToken := hKeyword.mpr hName
    simp [keywords] at hToken
  | not => decide
  | connective op => cases op <;> decide
  | temporal q p => cases q <;> cases p <;> decide
  | quantifier q => cases q <;> decide
  | untl => decide
  | _ => cases hWord

/-- Every token but the end token has a first character. It is visible, and tells
whether the token is a word. -/
theorem IsProper.exists_first {token : Token} (h : token.IsProper) (hEnd : token ≠ .endOfText) :
    ∃ c cs, token.spelling.toList = c :: cs ∧ isSpacing c = false ∧ c.isAlpha = token.isWord := by
  cases hWord : token.isWord with
  | true =>
    obtain ⟨hFilled, hAlpha, -⟩ := h.word hWord
    obtain ⟨c, cs, hSpelling⟩ := List.exists_cons_of_ne_nil (mt String.toList_eq_nil_iff.mp hFilled)
    have hFirst := hAlpha c (by rw [hSpelling]; exact List.mem_cons_self)
    exact ⟨c, cs, hSpelling, (isSpacing_of_isAlpha hFirst).1, hFirst⟩
  | false =>
    cases token with
    | leftParen => exact ⟨'(', [], rfl, rfl, rfl⟩
    | rightParen => exact ⟨')', [], rfl, rfl, rfl⟩
    | invalid c =>
      obtain ⟨hAlpha, -, hSpacing⟩ := h.invalid c rfl
      rw [← isSpacing_iff, Bool.not_eq_true] at hSpacing
      exact ⟨c, [], by simp [spelling], hSpacing, hAlpha⟩
    | endOfText => exact absurd rfl hEnd
    | _ => cases hWord

theorem IsProper.utf8ByteSize_pos {token : Token} (h : token.IsProper)
    (hEnd : token ≠ .endOfText) : 0 < token.spelling.utf8ByteSize := by
  obtain ⟨c, cs, hSpelling, -⟩ := h.exists_first hEnd
  rw [Nat.pos_iff_ne_zero, ne_eq, String.utf8ByteSize_eq_zero_iff, ← String.toList_eq_nil_iff,
    hSpelling]
  exact List.cons_ne_nil c cs

end Token

-- ---------------------------------------------------------------------------
-- One step
-- ---------------------------------------------------------------------------

/-- A text of characters of one byte has as many bytes as characters. -/
theorem utf8ByteSize_of_ascii {cs : List Char} (h : ∀ c ∈ cs, c.utf8Size = 1) :
    (String.ofList cs).utf8ByteSize = cs.length := by
  induction cs with
  | nil => rfl
  | cons c rest ih =>
    obtain ⟨hFirst, hRest⟩ := List.forall_mem_cons.mp h
    have hSplit : String.ofList (c :: rest) = String.singleton c ++ String.ofList rest := by
      rw [String.singleton_eq_ofList, ← String.ofList_append]
      rfl
    rw [hSplit, String.utf8ByteSize_append, String.utf8ByteSize_singleton, hFirst, ih hRest,
      List.length_cons, Nat.add_comm]

theorem Token.utf8Size_of_isSpacing {c : Char} (h : isSpacing c = true) : c.utf8Size = 1 := by
  simp only [isSpacing_iff, List.mem_cons, List.not_mem_nil, or_false] at h
  rcases h with rfl | rfl | rfl | rfl | rfl <;> rfl

theorem utf8Size_of_isAlpha {c : Char} (h : c.isAlpha = true) : c.utf8Size = 1 := by
  rw [Char.utf8Size_eq_one_iff]
  unfold Char.isAlpha Char.isUpper Char.isLower at h
  simp only [Bool.or_eq_true, Bool.and_eq_true, decide_eq_true_eq, ge_iff_le,
    UInt32.le_iff_toNat_le] at h ⊢
  have hUpper : 'Z'.val.toNat = 90 := rfl
  have hLower : 'z'.val.toNat = 122 := rfl
  have hLimit : (127 : UInt32).toNat = 127 := rfl
  omega

/-- Behind characters of one kind stands one of another kind. -/
theorem first_dropWhile (p : Char → Bool) (cs : List Char) :
    ∀ c ∈ (cs.dropWhile p).head?, p c = false := by
  intro c hc
  have hStops := List.head?_dropWhile_not p cs
  rw [Option.mem_def.mp hc] at hStops
  simpa using hStops

namespace Cursor

/-- Reading a token moves the cursor from its first character to behind its last
one. Only the end of the text is read as the end token. -/
structure Reads (start : Cursor) (token : Token) (after : Cursor) : Prop where
  text : String.ofList start.rest = token.spelling ++ String.ofList after.rest
  offset : after.offset = start.offset + token.spelling.utf8ByteSize
  isProper : token.IsProper
  /-- A word is not left before its last letter. -/
  stops : token.isWord = true → ∀ c ∈ after.rest.head?, c.isAlpha = false
  ended : token = .endOfText ↔ start.rest = []

theorem reads_end (offset : Nat) : Reads ⟨offset, []⟩ .endOfText ⟨offset, []⟩ where
  text := by simp [Token.spelling]
  offset := by simp [Token.spelling]
  isProper := ⟨fun h => absurd h Bool.false_ne_true, fun c h => Token.noConfusion h⟩
  stops h := absurd h Bool.false_ne_true
  ended := iff_of_true rfl rfl

/-- A character that is a token of its own. -/
theorem reads_char {token : Token} {c : Char} (hSpelling : token.spelling = String.singleton c)
    (hWord : token.isWord = false) (hInvalid : ∀ d, token = .invalid d → d.isAlpha = false ∧
      d ∉ ['(', ')'] ∧ d ∉ [' ', '\t', '\r', '\n', '\x0c']) (offset : Nat) (rest : List Char) :
    Reads ⟨offset, c :: rest⟩ token ⟨offset + c.utf8Size, rest⟩ where
  text := by
    rw [hSpelling, String.singleton_eq_ofList, ← String.ofList_append]
    rfl
  offset := by rw [hSpelling, String.utf8ByteSize_singleton]
  isProper := ⟨fun h => absurd (hWord.symm.trans h) Bool.false_ne_true, hInvalid⟩
  stops h := absurd (hWord.symm.trans h) Bool.false_ne_true
  ended := by
    refine iff_of_false ?_ (List.cons_ne_nil c rest)
    rintro rfl
    have hSize := congrArg String.utf8ByteSize hSpelling
    rw [String.utf8ByteSize_singleton] at hSize
    exact Nat.ne_of_lt c.utf8Size_pos hSize

/-- The letters in front are one word. -/
theorem reads_word {c : Char} (hAlpha : c.isAlpha = true) (offset : Nat) (rest : List Char) :
    let word := c :: rest.takeWhile Char.isAlpha
    Reads ⟨offset, c :: rest⟩ (.ofWord (String.ofList word))
      ⟨offset + word.length, rest.dropWhile Char.isAlpha⟩ := by
  intro word
  have hLetters : ∀ d ∈ word, d.isAlpha = true :=
    List.forall_mem_cons.mpr ⟨hAlpha, List.all_eq_true.mp List.all_takeWhile⟩
  have hFilled : String.ofList word ≠ "" := by simp [word]
  refine ⟨?_, ?_, Token.isProper_ofWord hFilled (by rwa [String.toList_ofList]), ?_, ?_⟩
  · rw [Token.spelling_ofWord, ← String.ofList_append, List.cons_append,
      List.takeWhile_append_dropWhile]
  · rw [Token.spelling_ofWord,
      utf8ByteSize_of_ascii fun d hd => utf8Size_of_isAlpha (hLetters d hd)]
  · exact fun _ => first_dropWhile Char.isAlpha rest
  · exact iff_of_false (Token.ofWord_ne_endOfText _) (List.cons_ne_nil c rest)

theorem reads_token {start : Cursor}
    (hVisible : ∀ c ∈ start.rest.head?, Token.isSpacing c = false) :
    start.Reads start.token.1 start.token.2 := by
  obtain ⟨offset, rest⟩ := start
  cases rest with
  | nil => exact reads_end offset
  | cons c rest =>
    have hSpacing := hVisible c rfl
    rw [token]
    dsimp only
    split
    · rename_i hLeft
      obtain rfl := beq_iff_eq.mp hLeft
      exact reads_char rfl rfl (by simp) offset rest
    · split
      · rename_i hRight
        obtain rfl := beq_iff_eq.mp hRight
        exact reads_char rfl rfl (by simp) offset rest
      · split
        · rename_i hAlpha
          exact reads_word hAlpha offset rest
        · rename_i hLeft hRight hAlpha
          refine reads_char rfl rfl ?_ offset rest
          rintro d hd
          obtain rfl := Token.invalid.inj hd
          rw [← Token.isSpacing_iff, hSpacing]
          simp_all

/-- What one step does: blanks are skipped, and a token is read behind them. -/
structure Moves (cursor : Cursor) (gap : String) (found : LocatedToken) (after : Cursor) :
    Prop where
  spacing : ∀ c ∈ gap.toList, c ∈ [' ', '\t', '\r', '\n', '\x0c']
  text : String.ofList cursor.rest = gap ++ found.token.spelling ++ String.ofList after.rest
  offset : found.offset = cursor.offset + gap.utf8ByteSize
  offset_after : after.offset = found.offset + found.token.spelling.utf8ByteSize
  isProper : found.token.IsProper
  stops : found.token.isWord = true → ∀ c ∈ after.rest.head?, c.isAlpha = false
  ended : found.token = .endOfText → after.rest = []

theorem moves_next (cursor : Cursor) : ∃ gap, cursor.Moves gap cursor.next.1 cursor.next.2 := by
  have hVisible : ∀ c ∈ cursor.skipSpacing.rest.head?, Token.isSpacing c = false :=
    first_dropWhile Token.isSpacing cursor.rest
  have hBlanks : ∀ c ∈ cursor.rest.takeWhile Token.isSpacing, Token.isSpacing c = true :=
    List.all_eq_true.mp List.all_takeWhile
  have hRead := reads_token hVisible
  refine ⟨String.ofList (cursor.rest.takeWhile Token.isSpacing), ?_, ?_, ?_, hRead.offset,
    hRead.isProper, hRead.stops, ?_⟩
  · intro c hc
    rw [String.toList_ofList] at hc
    exact Token.isSpacing_iff.mp (hBlanks c hc)
  · calc String.ofList cursor.rest
        = String.ofList (cursor.rest.takeWhile Token.isSpacing) ++
            String.ofList cursor.skipSpacing.rest := by
          rw [← String.ofList_append, skipSpacing, List.takeWhile_append_dropWhile]
      _ = _ := by rw [hRead.text, String.append_assoc]; rfl
  · rw [utf8ByteSize_of_ascii fun c hc => Token.utf8Size_of_isSpacing (hBlanks c hc)]
    rfl
  · intro hEnd
    have hNone := hRead.ended.mp hEnd
    show cursor.skipSpacing.token.2.rest = []
    rw [token, hNone]
    exact hNone

/-- The end token of the text that the cursor is in. -/
def lastToken (cursor : Cursor) : LocatedToken :=
  ⟨.endOfText, cursor.offset + (String.ofList cursor.rest).utf8ByteSize⟩

namespace Moves

variable {cursor after : Cursor} {gap : String} {found : LocatedToken}

/-- The end of the text stays where it is. -/
theorem lastToken_eq (h : cursor.Moves gap found after) : after.lastToken = cursor.lastToken := by
  rw [lastToken, lastToken, h.text, String.utf8ByteSize_append, String.utf8ByteSize_append,
    h.offset_after, h.offset]
  simp only [Nat.add_assoc]

/-- The end token is found at the end of the text, where the cursor then stays. -/
theorem at_end (h : cursor.Moves gap found after) (hEnd : found.token = .endOfText) :
    found = cursor.lastToken ∧ after = ⟨cursor.lastToken.offset, []⟩ := by
  have hRest := h.ended hEnd
  have hAfter : after.offset = found.offset := by
    rw [h.offset_after, hEnd, Token.spelling, String.utf8ByteSize_empty, Nat.add_zero]
  have hLast : cursor.lastToken.offset = after.offset := by
    rw [← h.lastToken_eq, lastToken, hRest, String.ofList_nil, String.utf8ByteSize_empty,
      Nat.add_zero]
  constructor
  · rw [lastToken, ← hEnd]
    exact congrArg (LocatedToken.mk found.token) (hLast.trans hAfter).symm
  · rw [hLast, ← hRest]

theorem offset_le (h : cursor.Moves gap found after) : cursor.offset ≤ found.offset := by
  rw [h.offset]
  exact Nat.le_add_right _ _

/-- A word behind something that is no letter. -/
theorem offset_lt (h : cursor.Moves gap found after) (hWord : found.token.isWord = true)
    (hFirst : ∀ c ∈ cursor.rest.head?, c.isAlpha = false) : cursor.offset < found.offset := by
  have hGap : gap ≠ "" := by
    rintro rfl
    obtain ⟨c, cs, hSpelling, -, hAlpha⟩ := h.isProper.exists_first fun hEnd => by
      rw [hEnd] at hWord
      cases hWord
    have hText := congrArg String.toList h.text
    rw [String.toList_ofList, String.empty_append, String.toList_append, hSpelling] at hText
    have hLetter := hFirst c (by rw [hText]; rfl)
    rw [hAlpha, hWord] at hLetter
    cases hLetter
  have hSize : gap.utf8ByteSize ≠ 0 := mt String.utf8ByteSize_eq_zero_iff.mp hGap
  rw [h.offset]
  omega

end Moves

-- ---------------------------------------------------------------------------
-- One step only
-- ---------------------------------------------------------------------------

/-- Letters with no letter behind them are read as one word. -/
theorem token_of_letters {word rest : List Char} (hFilled : word ≠ [])
    (hLetters : ∀ c ∈ word, c.isAlpha = true) (hStops : ∀ c ∈ rest.head?, c.isAlpha = false)
    (offset : Nat) :
    token ⟨offset, word ++ rest⟩ =
      (.ofWord (String.ofList word), ⟨offset + word.length, rest⟩) := by
  cases word with
  | nil => exact absurd rfl hFilled
  | cons c cs =>
    obtain ⟨hFirst, hOthers⟩ := List.forall_mem_cons.mp hLetters
    obtain ⟨-, hLeft, hRight⟩ := Token.isSpacing_of_isAlpha hFirst
    obtain ⟨hTake, hDrop⟩ := Token.span_of_first hStops
    simp [token, hFirst, hLeft, hRight, List.takeWhile_append_of_pos hOthers,
      List.dropWhile_append_of_pos hOthers, hTake, hDrop]

/-- What can be read is what is read. -/
theorem Reads.token_eq {start after : Cursor} {token : Token} (h : start.Reads token after) :
    start.token = (token, after) := by
  obtain ⟨offset, rest⟩ := start
  obtain ⟨offset', rest'⟩ := after
  have hRest : rest = token.spelling.toList ++ rest' := by
    simpa using congrArg String.toList h.text
  have hOffset : offset' = offset + token.spelling.utf8ByteSize := h.offset
  subst hRest hOffset
  cases hWord : token.isWord with
  | true =>
    obtain ⟨hFilled, hLetters, -⟩ := h.isProper.word hWord
    have hSize := utf8ByteSize_of_ascii fun c hc => utf8Size_of_isAlpha (hLetters c hc)
    rw [String.ofList_toList] at hSize
    rw [token_of_letters (mt String.toList_eq_nil_iff.mp hFilled) hLetters (h.stops hWord),
      String.ofList_toList, h.isProper.ofWord_spelling hWord, hSize]
  | false =>
    cases token with
    | leftParen => rfl
    | rightParen => rfl
    | invalid c =>
      obtain ⟨hAlpha, hParens, -⟩ := h.isProper.invalid c rfl
      have hNot : c ≠ '(' ∧ c ≠ ')' := by simpa using hParens
      simp [Cursor.token, Token.spelling, hAlpha, hNot]
    | endOfText =>
      obtain rfl : rest' = [] := (List.append_eq_nil_iff.mp (h.ended.mp rfl)).2
      rfl
    | _ => cases hWord

namespace Moves

variable {cursor after : Cursor} {gap : String} {found : LocatedToken}

/-- The token is read behind the blanks. -/
theorem reads (h : cursor.Moves gap found after) :
    Reads ⟨found.offset, found.token.spelling.toList ++ after.rest⟩ found.token after where
  text := by rw [String.ofList_append, String.ofList_toList]
  offset := h.offset_after
  isProper := h.isProper
  stops := h.stops
  ended := by
    constructor
    · intro hEnd
      rw [h.ended hEnd, hEnd]
      rfl
    · intro hNone
      by_contra hEnd
      obtain ⟨c, cs, hSpelling, -⟩ := h.isProper.exists_first hEnd
      rw [hSpelling] at hNone
      cases hNone

/-- All blanks are skipped, and nothing else. -/
theorem skipSpacing_eq (h : cursor.Moves gap found after) :
    cursor.skipSpacing = ⟨found.offset, found.token.spelling.toList ++ after.rest⟩ := by
  have hRest : cursor.rest = gap.toList ++ (found.token.spelling.toList ++ after.rest) := by
    simpa using congrArg String.toList h.text
  have hBlanks : ∀ c ∈ gap.toList, Token.isSpacing c = true := fun c hc =>
    Token.isSpacing_iff.mpr (h.spacing c hc)
  have hVisible : ∀ c ∈ (found.token.spelling.toList ++ after.rest).head?,
      Token.isSpacing c = false := by
    by_cases hEnd : found.token = .endOfText
    · rw [h.ended hEnd, hEnd]
      exact fun c hc => nomatch hc
    · obtain ⟨c, cs, hSpelling, hVisible, -⟩ := h.isProper.exists_first hEnd
      rw [hSpelling]
      intro d hd
      obtain rfl : c = d := Option.some.inj hd
      exact hVisible
  obtain ⟨hTake, hDrop⟩ := Token.span_of_first hVisible
  have hSize := utf8ByteSize_of_ascii fun c hc => Token.utf8Size_of_isSpacing (hBlanks c hc)
  rw [String.ofList_toList] at hSize
  rw [skipSpacing, hRest, List.takeWhile_append_of_pos hBlanks,
    List.dropWhile_append_of_pos hBlanks, hTake, hDrop, List.append_nil, h.offset, hSize]

/-- A step that can be made is the one that is made. -/
theorem next_eq (h : cursor.Moves gap found after) : cursor.next = (found, after) := by
  rw [next, h.skipSpacing_eq, h.reads.token_eq]

end Moves

end Cursor

end BranchingTime
