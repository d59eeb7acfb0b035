import BranchingTime.Proofs.Token.Steps
import Mathlib.Data.List.Chain
import Mathlib.Logic.Function.Iterate

/-!
# BranchingTime — nothing is lost in tokens

A text is the texts of its tokens, each at its byte offset, with blanks between
them. `IsLexing` says so, together with what makes the tokens the longest ones: a
word never follows another one without a blank between them, and no letter is
left over as an invalid character. A text can be cut into tokens in this way only
once, and that is what scanning it finds, however often it is asked.

## Results

* `Cursor.tokensFrom_cases` — an induction over whole scans.
* `Covers.eq_tokensFrom` — there is one way to cut a text.
* `tokenize_is_lossless` — scanning finds it, and goes on at the end for ever.
-/

namespace BranchingTime

-- ---------------------------------------------------------------------------
-- Cutting a text into tokens
-- ---------------------------------------------------------------------------

/-- The text, which starts at this byte offset, is the texts of the tokens, each at
its own offset, with only blanks between them. -/
inductive Covers : Nat → String → List LocatedToken → Prop where
  | nil (offset : Nat) : Covers offset "" []
  | cons {offset : Nat} {gap rest : String} {t : LocatedToken} {more : List LocatedToken} :
      (∀ c ∈ gap.toList, c ∈ [' ', '\t', '\r', '\n', '\x0c']) →
      t.offset = offset + gap.utf8ByteSize →
      Covers (t.offset + t.token.spelling.utf8ByteSize) rest more →
      Covers offset (gap ++ t.token.spelling ++ rest) (t :: more)

/-- If both tokens are words, the second one does not start where the first one
ends. -/
def LocatedToken.Apart (s t : LocatedToken) : Prop :=
  s.token.isWord = true → t.token.isWord = true →
    s.offset + s.token.spelling.utf8ByteSize < t.offset

/-- The text is cut into these tokens, and words are as long as they can be. -/
structure IsLexing (text : String) (tokens : List LocatedToken) : Prop where
  /-- The last token, and no other, is the end token, at the end of the text. -/
  ended : ∃ front, tokens = front ++ [⟨.endOfText, text.utf8ByteSize⟩] ∧
    ∀ t ∈ front, t.token ≠ .endOfText
  ascending : tokens.Pairwise (·.offset < ·.offset)
  /-- No offset lies inside a character. -/
  boundaries : ∀ t ∈ tokens, (⟨t.offset⟩ : String.Pos.Raw).IsValid text
  covers : Covers 0 text tokens
  apart : tokens.IsChain LocatedToken.Apart
  proper : ∀ t ∈ tokens, t.token.IsProper

/-- A token that is met in a text has a part of the text to itself. -/
theorem Covers.exists_around {offset : Nat} {text : String} {tokens : List LocatedToken}
    (h : Covers offset text tokens) {t : LocatedToken} (ht : t ∈ tokens) :
    ∃ before after, text = before ++ t.token.spelling ++ after ∧
      t.offset = offset + before.utf8ByteSize := by
  induction h with
  | nil => cases ht
  | @cons offset gap rest s more _ hOffset _ ih =>
    rcases List.mem_cons.mp ht with rfl | ht
    · exact ⟨gap, rest, rfl, hOffset⟩
    · obtain ⟨before, after, rfl, hBefore⟩ := ih ht
      refine ⟨gap ++ s.token.spelling ++ before, after, by simp only [String.append_assoc], ?_⟩
      rw [hBefore, hOffset, String.utf8ByteSize_append, String.utf8ByteSize_append]
      simp only [Nat.add_assoc]

-- ---------------------------------------------------------------------------
-- Whole scans
-- ---------------------------------------------------------------------------

namespace Cursor

/-- Scans are taken apart into their steps: the last one finds the end of the
text, all others find something else. -/
theorem tokensFrom_cases {P : Cursor → List LocatedToken → Prop}
    (hLast : ∀ cursor : Cursor, cursor.next.1.token = .endOfText → P cursor [cursor.next.1])
    (hMore : ∀ cursor : Cursor, cursor.next.1.token ≠ .endOfText →
      P cursor.next.2 (cursor.next.2.tokensFrom []) →
      P cursor (cursor.next.1 :: cursor.next.2.tokensFrom []))
    (cursor : Cursor) : P cursor (cursor.tokensFrom []) := by
  induction hLength : cursor.rest.length using Nat.strongRecOn generalizing cursor with
  | ind n ih =>
    subst hLength
    rw [tokensFrom_nil]
    split
    · rename_i hEnd
      exact hLast cursor hEnd
    · rename_i hToken
      exact hMore cursor hToken (ih _ (next_rest_length_lt hToken) _ rfl)

theorem isProper_tokensFrom (cursor : Cursor) :
    ∀ t ∈ cursor.tokensFrom [], t.token.IsProper := by
  have hNext (cursor : Cursor) : cursor.next.1.token.IsProper := by
    obtain ⟨gap, hMoves⟩ := cursor.moves_next
    exact hMoves.isProper
  refine tokensFrom_cases (P := fun _ tokens => ∀ t ∈ tokens, t.token.IsProper) ?_ ?_ cursor
  · intro cursor _
    exact List.forall_mem_singleton.mpr (hNext cursor)
  · intro cursor _ hRest
    exact List.forall_mem_cons.mpr ⟨hNext cursor, hRest⟩

theorem ended_tokensFrom (cursor : Cursor) :
    ∃ front, cursor.tokensFrom [] = front ++ [cursor.lastToken] ∧
      ∀ t ∈ front, t.token ≠ .endOfText := by
  refine tokensFrom_cases (P := fun cursor tokens => ∃ front, tokens = front ++ [cursor.lastToken] ∧
    ∀ t ∈ front, t.token ≠ .endOfText) ?_ ?_ cursor
  · intro cursor hEnd
    obtain ⟨gap, hMoves⟩ := cursor.moves_next
    rw [(hMoves.at_end hEnd).1]
    exact ⟨[], rfl, fun t ht => nomatch ht⟩
  · rintro cursor hToken ⟨front, hFront, hInside⟩
    obtain ⟨gap, hMoves⟩ := cursor.moves_next
    rw [hFront, hMoves.lastToken_eq]
    exact ⟨cursor.next.1 :: front, rfl, List.forall_mem_cons.mpr ⟨hToken, hInside⟩⟩

theorem pairwise_tokensFrom (cursor : Cursor) :
    (cursor.tokensFrom []).Pairwise (·.offset < ·.offset) := by
  have hAll : (∀ t ∈ cursor.tokensFrom [], cursor.offset ≤ t.offset) ∧
      (cursor.tokensFrom []).Pairwise (·.offset < ·.offset) := by
    refine tokensFrom_cases (P := fun cursor tokens =>
      (∀ t ∈ tokens, cursor.offset ≤ t.offset) ∧ tokens.Pairwise (·.offset < ·.offset)) ?_ ?_ cursor
    · intro cursor _
      obtain ⟨gap, hMoves⟩ := cursor.moves_next
      exact ⟨List.forall_mem_singleton.mpr hMoves.offset_le, List.pairwise_singleton _ _⟩
    · rintro cursor hToken ⟨hBehind, hAscends⟩
      obtain ⟨gap, hMoves⟩ := cursor.moves_next
      have hFilled := hMoves.isProper.utf8ByteSize_pos hToken
      have hLess : ∀ t ∈ cursor.next.2.tokensFrom [], cursor.next.1.offset < t.offset := by
        intro t ht
        have hLe := hBehind t ht
        rw [hMoves.offset_after] at hLe
        omega
      refine ⟨List.forall_mem_cons.mpr ⟨hMoves.offset_le, fun t ht => ?_⟩,
        List.pairwise_cons.mpr ⟨hLess, hAscends⟩⟩
      exact Nat.le_trans hMoves.offset_le (Nat.le_of_lt (hLess t ht))
  exact hAll.2

theorem take_succ (cursor : Cursor) (n : Nat) :
    cursor.take (n + 1) = cursor.next.1 :: cursor.next.2.take n :=
  rfl

/-- Asking again and again finds the tokens, and then the end token for ever. -/
theorem take_tokensFrom (cursor : Cursor) (n : Nat) :
    cursor.take ((cursor.tokensFrom []).length + n) =
      cursor.tokensFrom [] ++ List.replicate n cursor.lastToken := by
  have hStays (offset n : Nat) : take ⟨offset, []⟩ n = List.replicate n ⟨.endOfText, offset⟩ := by
    induction n with
    | zero => rfl
    | succ n ih => exact congrArg (List.cons _) ih
  refine tokensFrom_cases (P := fun cursor tokens =>
    cursor.take (tokens.length + n) = tokens ++ List.replicate n cursor.lastToken) ?_ ?_ cursor
  · intro cursor hEnd
    obtain ⟨gap, hMoves⟩ := cursor.moves_next
    rw [List.length_singleton, Nat.add_comm, take_succ, (hMoves.at_end hEnd).2, hStays]
    rfl
  · intro cursor _ hRest
    obtain ⟨gap, hMoves⟩ := cursor.moves_next
    rw [hMoves.lastToken_eq] at hRest
    rw [List.length_cons, Nat.add_right_comm, take_succ, hRest, List.cons_append]

theorem covers_tokensFrom (cursor : Cursor) :
    Covers cursor.offset (String.ofList cursor.rest) (cursor.tokensFrom []) := by
  refine tokensFrom_cases (P := fun cursor tokens =>
    Covers cursor.offset (String.ofList cursor.rest) tokens) ?_ ?_ cursor
  · intro cursor hEnd
    obtain ⟨gap, hMoves⟩ := cursor.moves_next
    have hRest : String.ofList cursor.next.2.rest = "" := by
      rw [hMoves.ended hEnd, String.ofList_nil]
    rw [hMoves.text, hRest]
    exact .cons hMoves.spacing hMoves.offset (.nil _)
  · intro cursor _ hRest
    obtain ⟨gap, hMoves⟩ := cursor.moves_next
    rw [hMoves.offset_after] at hRest
    rw [hMoves.text]
    exact .cons hMoves.spacing hMoves.offset hRest

theorem apart_tokensFrom (cursor : Cursor) :
    (cursor.tokensFrom []).IsChain LocatedToken.Apart := by
  have hAll : (cursor.tokensFrom []).IsChain LocatedToken.Apart ∧
      ∀ t ∈ (cursor.tokensFrom []).head?, t.token.isWord = true →
        (∀ c ∈ cursor.rest.head?, c.isAlpha = false) → cursor.offset < t.offset := by
    refine tokensFrom_cases (P := fun cursor tokens => tokens.IsChain LocatedToken.Apart ∧
      ∀ t ∈ tokens.head?, t.token.isWord = true →
        (∀ c ∈ cursor.rest.head?, c.isAlpha = false) → cursor.offset < t.offset) ?_ ?_ cursor
    · intro cursor _
      obtain ⟨gap, hMoves⟩ := cursor.moves_next
      refine ⟨List.isChain_singleton _, fun t ht => ?_⟩
      obtain rfl : cursor.next.1 = t := Option.some.inj ht
      exact hMoves.offset_lt
    · rintro cursor _ ⟨hChain, hBehind⟩
      obtain ⟨gap, hMoves⟩ := cursor.moves_next
      refine ⟨List.isChain_cons.mpr ⟨fun t ht hWord hNext => ?_, hChain⟩, fun t ht => ?_⟩
      · rw [← hMoves.offset_after]
        exact hBehind t ht hNext (hMoves.stops hWord)
      · obtain rfl : cursor.next.1 = t := Option.some.inj ht
        exact hMoves.offset_lt
  exact hAll.1

end Cursor

-- ---------------------------------------------------------------------------
-- One way only
-- ---------------------------------------------------------------------------

/-- The last token, and no other, is the end token. -/
def EndsOnce (tokens : List LocatedToken) : Prop :=
  ∃ front last, tokens = front ++ [last] ∧ last.token = .endOfText ∧
    ∀ t ∈ front, t.token ≠ .endOfText

theorem EndsOnce.cases_first {t : LocatedToken} {more : List LocatedToken}
    (h : EndsOnce (t :: more)) :
    (t.token = .endOfText ∧ more = []) ∨ (t.token ≠ .endOfText ∧ EndsOnce more) := by
  obtain ⟨front, last, hTokens, hLast, hFront⟩ := h
  cases front with
  | nil =>
    obtain ⟨rfl, rfl⟩ := List.cons.inj hTokens
    exact .inl ⟨hLast, rfl⟩
  | cons s front =>
    obtain ⟨rfl, rfl⟩ := List.cons.inj hTokens
    obtain ⟨hFirst, hOthers⟩ := List.forall_mem_cons.mp hFront
    exact .inr ⟨hFirst, front, last, rfl, hLast, hOthers⟩

namespace Covers

variable {offset : Nat} {text : String} {tokens : List LocatedToken}

theorem eq_empty (h : Covers offset text []) : text = "" := by
  cases h
  rfl

/-- The first character is no letter, unless the first token is a word that starts
at once. -/
theorem isAlpha_first (h : Covers offset text tokens) (hEnds : EndsOnce tokens)
    (hProper : ∀ t ∈ tokens, t.token.IsProper)
    (hWord : ∀ t ∈ tokens.head?, t.token.isWord = true → offset < t.offset) :
    ∀ c ∈ text.toList.head?, c.isAlpha = false := by
  cases h with
  | nil => simp
  | @cons _ gap rest t more hSpacing hOffset hRest =>
    have hNotWord : gap = "" → t.token.isWord = false := by
      rintro rfl
      rw [String.utf8ByteSize_empty, Nat.add_zero] at hOffset
      rw [← Bool.not_eq_true]
      intro hIs
      exact Nat.ne_of_gt (hWord t rfl hIs) hOffset
    rw [String.toList_append, String.toList_append]
    intro c hc
    cases hGap : gap.toList with
    | cons d ds =>
      rw [hGap] at hc
      obtain rfl : d = c := Option.some.inj hc
      have hBlank := Token.isSpacing_iff.mpr (hSpacing d (by rw [hGap]; exact List.mem_cons_self))
      rw [← Bool.not_eq_true]
      intro hAlpha
      rw [(Token.isSpacing_of_isAlpha hAlpha).1] at hBlank
      cases hBlank
    | nil =>
      rw [hGap, List.nil_append] at hc
      rcases hEnds.cases_first with ⟨hEnd, rfl⟩ | ⟨hEnd, -⟩
      · rw [hEnd, hRest.eq_empty] at hc
        cases hc
      · obtain ⟨d, ds, hSpelling, -, hAlpha⟩ :=
          (hProper t List.mem_cons_self).exists_first hEnd
        rw [hSpelling] at hc
        obtain rfl : d = c := Option.some.inj hc
        rw [hAlpha, hNotWord (String.toList_eq_nil_iff.mp hGap)]

/-- There is one way to cut a text into tokens. -/
theorem eq_tokensFrom (h : Covers offset text tokens) (hEnds : EndsOnce tokens)
    (hProper : ∀ t ∈ tokens, t.token.IsProper) (hApart : tokens.IsChain LocatedToken.Apart) :
    tokens = Cursor.tokensFrom [] ⟨offset, text.toList⟩ := by
  induction h with
  | nil =>
    obtain ⟨front, last, hTokens, -⟩ := hEnds
    exact absurd hTokens.symm (List.append_ne_nil_of_right_ne_nil _ (List.cons_ne_nil _ _))
  | @cons offset gap rest t more hSpacing hOffset hRest ih =>
    obtain ⟨hFirst, hOthers⟩ := List.forall_mem_cons.mp hProper
    obtain ⟨hNext, hChain⟩ := List.isChain_cons.mp hApart
    have hMoves : Cursor.Moves ⟨offset, (gap ++ t.token.spelling ++ rest).toList⟩ gap t
        ⟨t.offset + t.token.spelling.utf8ByteSize, rest.toList⟩ :=
      { spacing := hSpacing
        text := by rw [String.ofList_toList, String.ofList_toList]
        offset := hOffset
        offset_after := rfl
        isProper := hFirst
        stops := fun hWord => by
          rcases hEnds.cases_first with ⟨hEnd, -⟩ | ⟨-, hMore⟩
          · rw [hEnd] at hWord
            cases hWord
          · exact hRest.isAlpha_first hMore hOthers fun s hs => hNext s hs hWord
        ended := fun hEnd => by
          rcases hEnds.cases_first with ⟨-, rfl⟩ | ⟨hToken, -⟩
          · rw [hRest.eq_empty]
            rfl
          · exact absurd hEnd hToken }
    rw [Cursor.tokensFrom_nil, hMoves.next_eq]
    rcases hEnds.cases_first with ⟨hEnd, rfl⟩ | ⟨hToken, hMore⟩
    · rw [if_pos hEnd]
    · rw [if_neg hToken, ← ih hMore hOthers hChain]

end Covers

-- ---------------------------------------------------------------------------
-- Scanning a text
-- ---------------------------------------------------------------------------

/-- The cursor stands in the text: what is left is what stands behind its offset. -/
def Cursor.IsIn (cursor : Cursor) (text : String) : Prop :=
  ∃ read, text = read ++ String.ofList cursor.rest ∧ cursor.offset = read.utf8ByteSize

theorem Cursor.IsIn.next {cursor : Cursor} {text : String} (h : cursor.IsIn text) :
    cursor.next.2.IsIn text := by
  obtain ⟨read, rfl, hRead⟩ := h
  obtain ⟨gap, hMoves⟩ := cursor.moves_next
  refine ⟨read ++ gap ++ cursor.next.1.token.spelling, ?_, ?_⟩
  · rw [hMoves.text]
    simp only [String.append_assoc]
  · rw [hMoves.offset_after, hMoves.offset, hRead, String.utf8ByteSize_append,
      String.utf8ByteSize_append]

/-- **Nothing is lost in tokens.** Scanning any text ends. It cuts the text into
tokens, each with its own text at its own offset, words as long as they can be, and
blanks between them; there is no other way to do so. Asking for one token after the
other gives the same tokens, and then the end token at the end of the text for ever;
after any number of steps the scanner stands between two characters, with exactly
the rest of the text before it. -/
theorem tokenize_is_lossless (text : String) :
    (∀ tokens, tokens = tokenize text ↔ IsLexing text tokens) ∧
    (∀ n, (Cursor.ofText text).take ((tokenize text).length + n) =
      tokenize text ++ List.replicate n ⟨.endOfText, text.utf8ByteSize⟩) ∧
    ∀ n, (Nat.iterate (fun cursor => cursor.next.2) n (Cursor.ofText text)).IsIn text := by
  have hStart : String.ofList (Cursor.ofText text).rest = text := String.ofList_toList
  have hLast : (Cursor.ofText text).lastToken = ⟨.endOfText, text.utf8ByteSize⟩ := by
    rw [Cursor.lastToken, hStart, Cursor.ofText, Nat.zero_add]
  refine ⟨fun tokens => ⟨?_, fun h => ?_⟩, fun n => ?_, fun n => ?_⟩
  · rintro rfl
    have hCovers := (Cursor.ofText text).covers_tokensFrom
    have hEnded := (Cursor.ofText text).ended_tokensFrom
    rw [hStart] at hCovers
    rw [hLast] at hEnded
    refine ⟨hEnded, Cursor.pairwise_tokensFrom _, fun t ht => ?_, hCovers,
      Cursor.apart_tokensFrom _, Cursor.isProper_tokensFrom _⟩
    obtain ⟨before, after, hText, hOffset⟩ := hCovers.exists_around ht
    refine String.Pos.Raw.isValid_iff_exists_append.mpr
      ⟨before, t.token.spelling ++ after, by rw [hText, String.append_assoc], ?_⟩
    exact congrArg String.Pos.Raw.mk (hOffset.trans (Nat.zero_add _))
  · obtain ⟨front, hTokens, hFront⟩ := h.ended
    exact h.covers.eq_tokensFrom ⟨front, _, hTokens, rfl, hFront⟩ h.proper h.apart
  · rw [← hLast]
    exact (Cursor.ofText text).take_tokensFrom n
  · induction n with
    | zero =>
      rw [Function.iterate_zero_apply]
      exact ⟨"", by rw [hStart, String.empty_append], rfl⟩
    | succ n ih =>
      rw [Function.iterate_succ_apply']
      exact ih.next

end BranchingTime
