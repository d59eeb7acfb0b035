/-!
# BranchingTime — the DOT language

The part of the DOT language that drawings are written in: a directed graph is
a list of statements, each of which may have attributes in brackets. The reader
below takes the text of a graph apart. It knows nothing of models.
-/

namespace BranchingTime.Dot

/-- A name of the language. -/
inductive Name where
  /-- Letters, digits and underscores. -/
  | plain (text : String)
  /-- What stands between two quotes, with its escapes. -/
  | quoted (text : String)
deriving DecidableEq, Inhabited

inductive Token where
  | name (name : Name)
  | arrow
  /-- A bracket, a brace or another sign of one character. -/
  | mark (c : Char)
deriving DecidableEq, Inhabited

/-- May `c` stand in a plain name? -/
def isNameChar (c : Char) : Bool :=
  c.isAlphanum || c == '_' || 128 ≤ c.toNat

def isMark (c : Char) : Bool :=
  ['\x7b', '\x7d', '[', ']', ';', ',', '='].contains c

-- ---------------------------------------------------------------------------
-- Tokens
-- ---------------------------------------------------------------------------

/-- Where a scanner is. In a name, `seen` holds its characters so far, the last
one first. -/
inductive Place where
  | between
  | inName (seen : List Char)
  | inQuotes (seen : List Char)
  /-- Inside quotes and behind a backslash, which takes the next character with it. -/
  | behindBackslash (seen : List Char)
  | behindDash
deriving DecidableEq, Inhabited

/-- The tokens that `c` completes between two tokens, and the place behind it. -/
def start? (c : Char) : Option (List Token × Place) :=
  if isNameChar c then some ([], .inName [c])
  else if c == '\x22' then some ([], .inQuotes [])
  else if c == '-' then some ([], .behindDash)
  else if isMark c then some ([.mark c], .between)
  else if c.isWhitespace then some ([], .between)
  else none

/-- The tokens that `c` completes, and the place behind it. -/
def Place.step? : Place → Char → Option (List Token × Place)
  | .between, c => start? c
  | .inName seen, c =>
    if isNameChar c then some ([], .inName (c :: seen))
    else (start? c).map fun (found, place) =>
      (.name (.plain (String.ofList seen.reverse)) :: found, place)
  | .inQuotes seen, c =>
    if c == '\x22' then some ([.name (.quoted (String.ofList seen.reverse))], .between)
    else if c == '\\' then some ([], .behindBackslash (c :: seen))
    else some ([], .inQuotes (c :: seen))
  | .behindBackslash seen, c => some ([], .inQuotes (c :: seen))
  | .behindDash, c => if c == '>' then some ([.arrow], .between) else none

/-- The tokens that the end of the text completes. -/
def Place.finish? : Place → Option (List Token)
  | .between => some []
  | .inName seen => some [.name (.plain (String.ofList seen.reverse))]
  | _ => none

/-- The tokens of a text. -/
def scan? : Place → List Char → Option (List Token)
  | place, [] => place.finish?
  | place, c :: rest =>
    (place.step? c).bind fun (found, next) => (scan? next rest).map (found ++ ·)

-- ---------------------------------------------------------------------------
-- Statements
-- ---------------------------------------------------------------------------

structure Attribute where
  key : Name
  value : Name
deriving DecidableEq, Inhabited

inductive Statement where
  | setting (setting : Attribute)
  /-- The attributes of the nodes to come. -/
  | defaults (attributes : List Attribute)
  | node (name : Name) (attributes : List Attribute)
  | edge (source target : Name) (attributes : List Attribute)
deriving DecidableEq, Inhabited

structure Graph where
  name : Name
  statements : List Statement
deriving DecidableEq, Inhabited

def Attribute.ofTokens? : List Token → Option Attribute
  | [.name key, .mark '=', .name value] => some ⟨key, value⟩
  | _ => none

/-- Reads the attributes at the end of a statement: nothing, or a list in
brackets with commas between its members. -/
def attributesOf? : List Token → Option (List Attribute)
  | [] => some []
  | .mark '[' :: rest =>
    if rest.getLast? = some (.mark ']') then
      (rest.dropLast.splitOn (.mark ',')).mapM Attribute.ofTokens?
    else none
  | _ => none

def Statement.ofTokens? : List Token → Option Statement
  | [.name key, .mark '=', .name value] => some (.setting ⟨key, value⟩)
  | .name source :: .arrow :: .name target :: rest =>
    (attributesOf? rest).map (.edge source target)
  | .name name :: rest =>
    (attributesOf? rest).map (if name = .plain "node" then .defaults else .node name)
  | _ => none

/-- Reads a graph: a semicolon ends every statement, and a brace follows the
last one. -/
def Graph.ofTokens? : List Token → Option Graph
  | .name keyword :: .name name :: .mark '\x7b' :: rest =>
    let pieces := rest.splitOn (.mark ';')
    if keyword = .plain "digraph" ∧ pieces.getLast? = some [.mark '\x7d'] then
      (pieces.dropLast.mapM Statement.ofTokens?).map (Graph.mk name)
    else none
  | _ => none

/-- Reads the text of a graph. -/
def Graph.read? (text : String) : Option Graph :=
  (scan? .between text.toList).bind Graph.ofTokens?

/-- Undoes the escapes of a quoted text in which only backslashes and quotes
are escaped. -/
def unescape? : List Char → Option (List Char)
  | [] => some []
  | '\\' :: c :: rest => if c == '\\' || c == '\x22' then (unescape? rest).map (c :: ·) else none
  | c :: rest => if c == '\\' || c == '\x22' then none else (unescape? rest).map (c :: ·)

end BranchingTime.Dot
