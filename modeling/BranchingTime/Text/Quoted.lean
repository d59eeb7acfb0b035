import BranchingTime.Text.Unprintable

/-!
# BranchingTime — quoted characters

How a message shows a character that stands where it should not: in single
quotes, with a backslash escape for the quote, the backslash, NUL, tab, line
feed and carriage return, and with the code point in hexadecimal for a
character that could not be seen.
-/

namespace BranchingTime.Text

/-- The escape for a character by its code point, in lower-case hexadecimal
without leading zeros. -/
def codePointEscape (c : Char) : String :=
  "\\u\x7b" ++ String.ofList (Nat.toDigits 16 c.toNat) ++ "\x7d"

/-- The text that stands for `c` between the quotes. -/
def escaped (c : Char) : String :=
  match c with
  | '\x00' => "\\0"
  | '\t' => "\\t"
  | '\n' => "\\n"
  | '\r' => "\\r"
  | '\x27' => "\\'"
  | '\\' => "\\\\"
  | _ => if isUnprintable c then codePointEscape c else c.toString

/-- The character `c` as messages show it. -/
def quoted (c : Char) : String :=
  "'" ++ escaped c ++ "'"

end BranchingTime.Text
