import BranchingTime.Token.Scan

/-!
# BranchingTime — the tokens of a text

Which tokens a text has depends on its characters only, not on where they
stand: `lex` are the tokens of a list of characters. Blanks, parentheses and
words in front are read off one after the other.

## Results

* `map_token_tokenize` — a text has the tokens of its characters.
* `lex_word` — a word in front is one token, if no letter follows it.
* `lex_append` — a text keeps its tokens when something is added that does not
  start with a letter.
* `lex_eq_append` — the tokens end with the end token. Before it there is no
  other one, and the atoms there are words that are no keywords.
-/

namespace BranchingTime

/-- Can a formula's text hold an atom of this name? It has to be a word, and
not one of the keywords. -/
def Token.IsAtomName (name : String) : Prop :=
  name ≠ "" ∧ name.toList.all Char.isAlpha = true ∧ name ∉ keywords.map Prod.fst

instance (name : String) : Decidable (Token.IsAtomName name) :=
  inferInstanceAs (Decidable (_ ∧ _ ∧ _))

example : Token.keywords.map Prod.fst =
    ["NOT", "AND", "OR", "IMPLIES", "AX", "AF", "AG", "EX", "EF", "EG", "E", "A", "U"] := rfl

namespace Cursor

-- ---------------------------------------------------------------------------
-- All tokens
-- ---------------------------------------------------------------------------

theorem tokensFrom_eq_append (seen : List LocatedToken) (cursor : Cursor) :
    cursor.tokensFrom seen = seen.reverse ++ cursor.tokensFrom [] := by
  induction hLength : cursor.rest.length using Nat.strongRecOn generalizing seen cursor with
  | ind n ih =>
    subst hLength
    rw [tokensFrom.eq_def seen, tokensFrom.eq_def []]
    dsimp only
    split
    · simp
    · rename_i hToken
      have hLess := next_rest_length_lt hToken
      rw [ih _ hLess _ _ rfl, ih _ hLess [_] _ rfl]
      simp

/-- The next token comes first, and ends the text or is followed by the others. -/
theorem tokensFrom_nil (cursor : Cursor) :
    cursor.tokensFrom [] =
      cursor.next.1 ::
        if cursor.next.1.token = .endOfText then [] else cursor.next.2.tokensFrom [] := by
  rw [tokensFrom]
  split
  · rfl
  · rw [tokensFrom_eq_append]
    rfl

/-- Which token comes next, and what is left of the text after it, depends on
the characters only. -/
theorem next_congr {cursor other : Cursor} (hRest : cursor.rest = other.rest) :
    cursor.next.1.token = other.next.1.token ∧ cursor.next.2.rest = other.next.2.rest := by
  obtain ⟨offset, rest⟩ := cursor
  obtain ⟨offset', rest'⟩ := other
  obtain rfl : rest = rest' := hRest
  simp only [next, skipSpacing]
  cases rest.dropWhile Token.isSpacing with
  | nil => exact ⟨rfl, rfl⟩
  | cons c rest =>
    simp only [token]
    repeat' split
    all_goals exact ⟨rfl, rfl⟩

theorem tokensFrom_congr {cursor other : Cursor} (hRest : cursor.rest = other.rest) :
    (cursor.tokensFrom []).map LocatedToken.token =
      (other.tokensFrom []).map LocatedToken.token := by
  induction hLength : cursor.rest.length using Nat.strongRecOn generalizing cursor other with
  | ind n ih =>
    subst hLength
    obtain ⟨hToken, hAfter⟩ := next_congr hRest
    rw [tokensFrom_nil cursor, tokensFrom_nil other, List.map_cons, List.map_cons, hToken]
    split
    · rfl
    · rename_i hMore
      rw [ih _ (next_rest_length_lt (hToken ▸ hMore)) hAfter rfl]

end Cursor

-- ---------------------------------------------------------------------------
-- Tokens of characters
-- ---------------------------------------------------------------------------

namespace Token

/-- The tokens of a list of characters. -/
def lex (cs : List Char) : List Token :=
  (Cursor.tokensFrom [] { offset := 0, rest := cs }).map LocatedToken.token

theorem lex_cursor (cursor : Cursor) :
    (cursor.tokensFrom []).map LocatedToken.token = lex cursor.rest :=
  Cursor.tokensFrom_congr rfl

/-- A text has the tokens of its characters. -/
theorem map_token_tokenize (text : String) :
    (tokenize text).map LocatedToken.token = lex text.toList :=
  rfl

-- ---------------------------------------------------------------------------
-- Words
-- ---------------------------------------------------------------------------

theorem ofWord_of_notMem {word : String} (hWord : word ∉ keywords.map Prod.fst) :
    ofWord word = .atom word := by
  have hLookup : keywords.lookup word = none := by
    rw [List.lookup_eq_none_iff]
    intro entry hEntry
    have hNe : word ≠ entry.1 := fun h => hWord (h ▸ List.mem_map_of_mem hEntry)
    simpa using hNe
  rw [ofWord, hLookup, Option.getD_none]

/-- A word is a keyword's token, or an atom that is no keyword. -/
theorem ofWord_cases (word : String) :
    ofWord word ∈ keywords.map Prod.snd ∨
      word ∉ keywords.map Prod.fst ∧ ofWord word = .atom word := by
  by_cases hWord : word ∈ keywords.map Prod.fst
  · obtain ⟨entry, hEntry, rfl⟩ := List.mem_map.mp hWord
    left
    revert entry
    decide
  · exact .inr ⟨hWord, ofWord_of_notMem hWord⟩

theorem ofWord_ne_endOfText (word : String) : ofWord word ≠ .endOfText := by
  rcases ofWord_cases word with hKeyword | ⟨-, hAtom⟩
  · intro hEnd
    rw [hEnd] at hKeyword
    revert hKeyword
    decide
  · rw [hAtom]
    exact Token.noConfusion

-- ---------------------------------------------------------------------------
-- Reading off the front
-- ---------------------------------------------------------------------------

theorem lex_nil : lex [] = [.endOfText] := by
  rw [lex, Cursor.tokensFrom_nil]
  rfl

/-- A blank in front is skipped. -/
theorem lex_spacing {c : Char} (hSpacing : isSpacing c = true) (cs : List Char) :
    lex (c :: cs) = lex cs := by
  have hSkip (offset : Nat) : (Cursor.mk offset (c :: cs)).skipSpacing =
      (Cursor.mk (offset + 1) cs).skipSpacing := by
    simp [Cursor.skipSpacing, hSpacing, Nat.add_assoc, Nat.add_comm 1]
  have hNext : (Cursor.mk 0 (c :: cs)).next = (Cursor.mk 1 cs).next := by
    rw [Cursor.next, Cursor.next, hSkip]
  rw [lex, Cursor.tokensFrom_nil, hNext, ← Cursor.tokensFrom_nil, lex_cursor]

/-- What a visible character in front starts. -/
theorem lex_cons {c : Char} (hVisible : isSpacing c = false) (cs : List Char) :
    lex (c :: cs) =
      if c == '(' then .leftParen :: lex cs
      else if c == ')' then .rightParen :: lex cs
      else if c.isAlpha then
        .ofWord (String.ofList (c :: cs.takeWhile Char.isAlpha)) :: lex (cs.dropWhile Char.isAlpha)
      else .invalid c :: lex cs := by
  have hSkip : (Cursor.mk 0 (c :: cs)).skipSpacing = Cursor.mk 0 (c :: cs) := by
    simp [Cursor.skipSpacing, hVisible]
  rw [lex, Cursor.tokensFrom_nil, Cursor.next, hSkip, List.map_cons]
  simp only [Cursor.token]
  repeat' split
  all_goals simp_all [lex_cursor, ofWord_ne_endOfText]

theorem lex_leftParen (cs : List Char) : lex ('(' :: cs) = .leftParen :: lex cs :=
  lex_cons rfl cs

theorem lex_rightParen (cs : List Char) : lex (')' :: cs) = .rightParen :: lex cs :=
  lex_cons rfl cs

/-- A letter is visible, and no parenthesis. -/
theorem isSpacing_of_isAlpha {c : Char} (hAlpha : c.isAlpha = true) :
    isSpacing c = false ∧ c ≠ '(' ∧ c ≠ ')' := by
  have hNe : ∀ d : Char, d.isAlpha = false → c ≠ d := by
    rintro d hd rfl
    rw [hAlpha] at hd
    cases hd
  refine ⟨?_, hNe _ rfl, hNe _ rfl⟩
  simp [isSpacing, hNe ' ' rfl, hNe '\t' rfl, hNe '\n' rfl, hNe '\r' rfl, hNe '\x0c' rfl]

/-- If the first character is of another kind, none of this kind is taken off. -/
theorem span_of_first {p : Char → Bool} {cs : List Char} (h : ∀ c ∈ cs.head?, p c = false) :
    cs.takeWhile p = [] ∧ cs.dropWhile p = cs := by
  cases cs with
  | nil => exact ⟨rfl, rfl⟩
  | cons c rest => simp [h c rfl]

/-- A word in front is one token, if no letter follows it. -/
theorem lex_word {word cs : List Char} (hWord : word ≠ []) (hAlpha : ∀ c ∈ word, c.isAlpha = true)
    (hNext : ∀ c ∈ cs.head?, c.isAlpha = false) :
    lex (word ++ cs) = .ofWord (String.ofList word) :: lex cs := by
  cases word with
  | nil => exact absurd rfl hWord
  | cons c word =>
    obtain ⟨hFirst, hLetters⟩ := List.forall_mem_cons.mp hAlpha
    obtain ⟨hVisible, hLeft, hRight⟩ := isSpacing_of_isAlpha hFirst
    obtain ⟨hTake, hDrop⟩ := span_of_first hNext
    rw [List.cons_append, lex_cons hVisible, List.takeWhile_append_of_pos hLetters,
      List.dropWhile_append_of_pos hLetters, hTake, hDrop, List.append_nil]
    simp [hFirst, hLeft, hRight]

-- ---------------------------------------------------------------------------
-- What is found
-- ---------------------------------------------------------------------------

/-- Can a text hold this token before its end? -/
def IsInside : Token → Prop
  | .atom name => IsAtomName name
  | .endOfText => False
  | _ => True

theorem isInside_ofWord {word : List Char} (hWord : word ≠ [])
    (hAlpha : ∀ c ∈ word, c.isAlpha = true) : (ofWord (String.ofList word)).IsInside := by
  rcases ofWord_cases (String.ofList word) with hKeyword | ⟨hNot, hAtom⟩
  · revert hKeyword
    generalize ofWord (String.ofList word) = token
    revert token
    simp [keywords, IsInside]
  · rw [hAtom]
    exact ⟨by simpa using hWord, by simpa using hAlpha, hNot⟩

/-- The letters in front of a text are one token, whatever comes later that is no
letter. -/
theorem lex_letters {c : Char} (hAlpha : c.isAlpha = true) (cs : List Char) {later : List Char}
    (hLater : ∀ d ∈ later.head?, d.isAlpha = false) :
    lex (c :: (cs ++ later)) =
      .ofWord (String.ofList (c :: cs.takeWhile Char.isAlpha)) ::
        lex (cs.dropWhile Char.isAlpha ++ later) := by
  have hWord : ∀ d ∈ c :: cs.takeWhile Char.isAlpha, d.isAlpha = true :=
    List.forall_mem_cons.mpr ⟨hAlpha, List.all_eq_true.mp List.all_takeWhile⟩
  have hNext : ∀ d ∈ (cs.dropWhile Char.isAlpha ++ later).head?, d.isAlpha = false := by
    intro d hd
    have hDrop := List.head?_dropWhile_not Char.isAlpha cs
    cases hRest : cs.dropWhile Char.isAlpha with
    | nil =>
      rw [hRest, List.nil_append] at hd
      exact hLater d hd
    | cons e rest =>
      rw [hRest] at hd hDrop
      obtain rfl : e = d := Option.some.inj hd
      simpa using hDrop
  have hSplit : c :: (cs ++ later) =
      (c :: cs.takeWhile Char.isAlpha) ++ (cs.dropWhile Char.isAlpha ++ later) := by
    rw [← List.append_assoc, List.cons_append, List.takeWhile_append_dropWhile, List.cons_append]
  rw [hSplit, lex_word (List.cons_ne_nil _ _) hWord hNext]

/-- A visible character in front starts a token, whatever comes later that is no
letter, and the rest is shorter. -/
theorem lex_visible {c : Char} (hVisible : isSpacing c = false) (cs : List Char) :
    ∃ token rest, rest.length ≤ cs.length ∧ token.IsInside ∧
      ∀ later : List Char, (∀ d ∈ later.head?, d.isAlpha = false) →
        lex (c :: (cs ++ later)) = token :: lex (rest ++ later) := by
  by_cases hAlpha : c.isAlpha = true
  · refine ⟨_, _, Cursor.length_dropWhile_le _ _, ?_, fun later => lex_letters hAlpha cs⟩
    refine isInside_ofWord (List.cons_ne_nil _ _) ?_
    exact List.forall_mem_cons.mpr ⟨hAlpha, List.all_eq_true.mp List.all_takeWhile⟩
  · by_cases hLeft : c = '('
    · subst hLeft
      exact ⟨.leftParen, cs, Nat.le_refl _, trivial, fun later _ => lex_leftParen (cs ++ later)⟩
    · by_cases hRight : c = ')'
      · subst hRight
        exact ⟨.rightParen, cs, Nat.le_refl _, trivial, fun later _ => lex_rightParen (cs ++ later)⟩
      · refine ⟨.invalid c, cs, Nat.le_refl _, trivial, fun later _ => ?_⟩
        rw [lex_cons hVisible]
        simp [hLeft, hRight, hAlpha]

/-- A text has its tokens, whatever comes later that is no letter. -/
theorem lex_append (cs : List Char) :
    ∃ tokens, (∀ token ∈ tokens, token.IsInside) ∧
      ∀ later : List Char, (∀ c ∈ later.head?, c.isAlpha = false) →
        lex (cs ++ later) = tokens ++ lex later := by
  induction hLength : cs.length using Nat.strongRecOn generalizing cs with
  | ind n ih =>
    subst hLength
    cases cs with
    | nil => exact ⟨[], by simp, fun later _ => rfl⟩
    | cons c cs =>
      cases hSpacing : isSpacing c with
      | true =>
        simp only [List.cons_append, lex_spacing hSpacing]
        exact ih _ (Nat.lt_succ_self _) cs rfl
      | false =>
        obtain ⟨token, rest, hRest, hToken, hLex⟩ := lex_visible hSpacing cs
        obtain ⟨tokens, hInside, hTokens⟩ := ih _ (Nat.lt_succ_of_le hRest) rest rfl
        refine ⟨token :: tokens, List.forall_mem_cons.mpr ⟨hToken, hInside⟩, ?_⟩
        intro later hLater
        rw [List.cons_append, hLex later hLater, hTokens later hLater, List.cons_append]

/-- The tokens of a text end with the end token, and before it there is none. -/
theorem lex_eq_append (cs : List Char) :
    ∃ tokens, lex cs = tokens ++ [.endOfText] ∧ ∀ token ∈ tokens, token.IsInside := by
  obtain ⟨tokens, hInside, hTokens⟩ := lex_append cs
  have hAll := hTokens [] (by simp)
  rw [List.append_nil, lex_nil] at hAll
  exact ⟨tokens, hAll, hInside⟩

end Token

end BranchingTime
