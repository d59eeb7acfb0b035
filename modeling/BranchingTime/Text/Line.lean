import BranchingTime.Text.Blank

/-!
# BranchingTime — lines and fields

Model files, suite files and formula files are read line by line. A line ends
at a line feed; after the last line feed there is a further line only if it
has a character. Lines are numbered from 1, and every reader takes them
trimmed, so a carriage return in front of a line feed is a blank like any
other.
-/

namespace BranchingTime.Text

-- ---------------------------------------------------------------------------
-- Splitting
-- ---------------------------------------------------------------------------

/-- The pieces of `cs` between separators. There is always one piece more than
there are separators, and pieces may be empty. -/
def splitBy (isSeparator : Char → Bool) (cs : List Char) : List (List Char) :=
  cs.foldr
    (fun c pieces => if isSeparator c then [] :: pieces else pieces.modifyHead (c :: ·))
    [[]]

/-- The parts of `cs` before and after its first separator, if it has one. -/
def splitFirst? (isSeparator : Char → Bool) (cs : List Char) :
    Option (List Char × List Char) :=
  match cs.dropWhile (!isSeparator ·) with
  | [] => none
  | _ :: after => some (cs.takeWhile (!isSeparator ·), after)

-- ---------------------------------------------------------------------------
-- Lines
-- ---------------------------------------------------------------------------

/-- A trimmed line and its number in the text. -/
structure Line where
  number : Nat
  text : List Char
deriving DecidableEq

/-- The physical lines of a text, as they stand. -/
def physicalLines (text : List Char) : List (List Char) :=
  let pieces := splitBy (· == '\n') text
  match pieces.getLast? with
  | some [] => pieces.dropLast
  | _ => pieces

/-- All lines of a text, trimmed and numbered from 1. -/
def lines (text : List Char) : List Line :=
  (physicalLines text).zipIdx.map fun (line, k) => ⟨k + 1, trim line⟩

/-- The lines of a text that hold more than blanks. -/
def filledLines (text : List Char) : List Line :=
  (lines text).filter fun line => !line.text.isEmpty

/-- Is this a comment line, one whose first character is a number sign? -/
def Line.isComment (line : Line) : Bool :=
  line.text.head? == some '#'

/-- `text` without the byte order mark in front, if it has one. -/
def dropByteOrderMark (text : List Char) : List Char :=
  match text with
  | '\ufeff' :: rest => rest
  | _ => text

end BranchingTime.Text
