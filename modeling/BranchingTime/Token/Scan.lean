import BranchingTime.Token

/-!
# BranchingTime — scanning a text into tokens

`Cursor.next` reads one token and moves on. At the end of the text it returns
the end token, again and again. `tokenize` collects the tokens up to and
including the first end token.

## Results

* `Cursor.next_rest_length_lt` — every token but the end token uses up some of
  the text, so scanning ends.
-/

namespace BranchingTime

/-- Blanks between tokens: space, tab, line feed, carriage return, form feed. -/
def Token.isSpacing (c : Char) : Bool :=
  c == ' ' || c == '\t' || c == '\n' || c == '\r' || c == '\x0c'

/-- The rest of a text, and the byte offset at which it starts. -/
structure Cursor where
  offset : Nat
  rest : List Char

namespace Cursor

/-- The start of a text. -/
def ofText (text : String) : Cursor :=
  { offset := 0, rest := text.toList }

/-- The cursor after the blanks in front. All blanks take one byte. -/
def skipSpacing (cursor : Cursor) : Cursor :=
  { offset := cursor.offset + (cursor.rest.takeWhile Token.isSpacing).length
    rest := cursor.rest.dropWhile Token.isSpacing }

/-- Reads the token that starts exactly here. -/
def token (cursor : Cursor) : Token × Cursor :=
  match cursor.rest with
  | [] => (.endOfText, cursor)
  | c :: rest =>
    if c == '(' then
      (.leftParen, { offset := cursor.offset + 1, rest })
    else if c == ')' then
      (.rightParen, { offset := cursor.offset + 1, rest })
    else if c.isAlpha then
      let word := c :: rest.takeWhile Char.isAlpha
      (.ofWord (String.ofList word),
        { offset := cursor.offset + word.length, rest := rest.dropWhile Char.isAlpha })
    else
      (.invalid c, { offset := cursor.offset + c.utf8Size, rest })

/-- Reads the next token. -/
def next (cursor : Cursor) : LocatedToken × Cursor :=
  let start := cursor.skipSpacing
  let (token, after) := start.token
  ({ token, offset := start.offset }, after)

-- ---------------------------------------------------------------------------
-- Progress
-- ---------------------------------------------------------------------------

theorem length_dropWhile_le (p : Char → Bool) (cs : List Char) :
    (cs.dropWhile p).length ≤ cs.length :=
  (List.dropWhile_sublist p).length_le

theorem token_rest_length_lt {cursor : Cursor} (hToken : cursor.token.1 ≠ .endOfText) :
    cursor.token.2.rest.length < cursor.rest.length := by
  obtain ⟨offset, rest⟩ := cursor
  cases rest with
  | nil => exact absurd rfl hToken
  | cons c rest =>
    have hDrop := length_dropWhile_le Char.isAlpha rest
    simp only [token, List.length_cons]
    -- only a word may use up more than one character
    repeat' split
    all_goals simp only [Nat.lt_succ_iff, Nat.le_refl, hDrop]

/-- A token other than the end token uses up at least one character. -/
theorem next_rest_length_lt {cursor : Cursor} (hToken : cursor.next.1.token ≠ .endOfText) :
    cursor.next.2.rest.length < cursor.rest.length := by
  have hStart : cursor.skipSpacing.rest.length ≤ cursor.rest.length :=
    length_dropWhile_le Token.isSpacing cursor.rest
  have hStep : cursor.next.2.rest.length < cursor.skipSpacing.rest.length :=
    token_rest_length_lt hToken
  omega

-- ---------------------------------------------------------------------------
-- All tokens
-- ---------------------------------------------------------------------------

/-- The tokens from here to the first end token, after those already `seen`
(the latest first). -/
def tokensFrom (seen : List LocatedToken) (cursor : Cursor) : List LocatedToken :=
  let found := cursor.next
  if found.1.token = .endOfText then
    (found.1 :: seen).reverse
  else
    tokensFrom (found.1 :: seen) found.2
termination_by cursor.rest.length
decreasing_by exact next_rest_length_lt (by assumption)

/-- The first `n` tokens from here. -/
def take (cursor : Cursor) : Nat → List LocatedToken
  | 0 => []
  | n + 1 =>
    let (found, after) := cursor.next
    found :: after.take n

end Cursor

/-- The tokens of a text. The last one, and no other, is the end token. -/
def tokenize (text : String) : List LocatedToken :=
  (Cursor.ofText text).tokensFrom []

end BranchingTime
