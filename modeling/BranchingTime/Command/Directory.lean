import BranchingTime.Text.Line

/-!
# BranchingTime — the files a command sees

The command line reads and writes files by path. A `Directory` holds the files
and folders that a command can see, so that what a command does is a function
of its arguments and of a directory. What a directory does not hold is not
found.

A path is followed name by name. Each name but the last has to lead into a
folder, and the first that does not decides the error; a name is looked up only
in a folder that exists, so a name that is too long goes unnoticed behind one
that leads nowhere.
-/

namespace BranchingTime

/-- Why a file cannot be read or written. -/
inductive FileError where
  | notFound
  | notDirectory
  | isDirectory
  | nameTooLong
  | notText
  | system (code : Nat) (text : String)
deriving DecidableEq, Inhabited

/-- The message for a file that cannot be read or written. -/
def FileError.message : FileError → String
  | notFound => "No such file or directory (os error 2)"
  | notDirectory => "Not a directory (os error 20)"
  | isDirectory => "Is a directory (os error 21)"
  | nameTooLong => "File name too long (os error 36)"
  | notText => "stream did not contain valid UTF-8"
  | system code text => s!"{text} (os error {code})"

/-- A place among the folders: the names that lead to it from the current
folder. A place above that folder starts with `..`, and one counted from the
root with `/`. -/
abbrev Place := List String

/-- A file: where it is, and its content. -/
structure File where
  place : Place
  content : String

/-- The files that a command can see. The folders of a file exist with it;
`folders` are those that exist besides. The paths in `unreadable` and
`unwritable` fail whatever the directory holds. -/
structure Directory where
  files : List File
  folders : List Place := []
  unreadable : List (String × FileError) := []
  unwritable : List (String × FileError) := []

namespace Place

/-- The place above. The root is above itself. -/
def parent (place : Place) : Place :=
  match place.getLast? with
  | none | some ".." => place ++ [".."]
  | some "/" => place
  | some _ => place.dropLast

/-- Where a name leads from a place. -/
def step (place : Place) (name : String) : Place :=
  match name with
  | "." => place
  | ".." => place.parent
  | name => place ++ [name]

end Place

namespace Directory

/-- The longest name, in bytes. -/
def maxNameSize : Nat := 255

/-- The longest path, in bytes. -/
def maxPathSize : Nat := 4095

/-- The names on a path. Slashes only divide, so no name is empty. -/
def pathNames (path : String) : List String :=
  ((Text.splitBy (· == '/') path.toList).map String.ofList).filter (· != "")

/-- The place where a path starts. -/
def pathStart (path : String) : Place :=
  if path.toList.head? == some '/' then ["/"] else []

/-- Does a path ask for a folder by its last character? -/
def asksForFolder (path : String) : Bool :=
  path.toList.getLast? == some '/'

/-- Does a name lead to a folder wherever it stands? -/
def isDots (name : String) : Bool :=
  name == "." || name == ".."

/-- Is a name too long to be looked up? -/
def isTooLong (name : String) : Bool :=
  maxNameSize < name.utf8ByteSize

/-- The file at a place. -/
def file? (d : Directory) (place : Place) : Option File :=
  d.files.find? (·.place == place)

/-- Is there a folder at a place? The root and the folders above the current
one always exist. -/
def hasFolder (d : Directory) (place : Place) : Bool :=
  place.all (fun name => name == "/" || name == "..") || d.folders.contains place ||
    d.files.any fun file => place.length < file.place.length && place.isPrefixOf file.place

/-- Goes from a folder into the folder of the given name. -/
def enter (d : Directory) (place : Place) (name : String) : Except FileError Place :=
  let next := place.step name
  if isDots name then .ok next
  else if isTooLong name then .error .nameTooLong
  else if (d.file? next).isSome then .error .notDirectory
  else if d.hasFolder next then .ok next
  else .error .notFound

/-- What a path leads to: a folder, or a name to be looked up in a folder that
exists. -/
inductive Goal where
  | folder
  | entry (place : Place) (name : String)

/-- Follows a path up to its last name. -/
def follow (d : Directory) (path : String) : Except FileError Goal := do
  if maxPathSize < path.utf8ByteSize then throw .nameTooLong
  if path == "" then throw .notFound
  let names := pathNames path
  let place ← names.dropLast.foldlM d.enter (pathStart path)
  match names.getLast? with
  | none => return .folder
  | some name => return if isDots name then .folder else .entry place name

/-- The directory that holds the given files. -/
def ofFiles (files : List (String × String)) : Directory :=
  { files := files.map fun (path, content) =>
      { place := (pathNames path).foldl Place.step (pathStart path), content } }

/-- Reads a file. -/
def read (d : Directory) (path : String) : Except FileError String := do
  if let some cause := d.unreadable.lookup path then throw cause
  match ← d.follow path with
  | .folder => throw .isDirectory
  | .entry place name =>
    if isTooLong name then throw .nameTooLong
    match d.file? (place.step name) with
    | some file => if asksForFolder path then throw .notDirectory else return file.content
    | none => throw (if d.hasFolder (place.step name) then .isDirectory else .notFound)

/-- The directory with a file put in place of the one that was there. -/
def put (d : Directory) (file : File) : Directory :=
  { d with files := d.files.filter (·.place != file.place) ++ [file] }

/-- Writes a file. A path that asks for a folder is never written, also where
there is a file that it names. -/
def write (d : Directory) (path content : String) : Except FileError Directory := do
  if let some cause := d.unwritable.lookup path then throw cause
  match ← d.follow path with
  | .folder => throw .isDirectory
  | .entry place name =>
    if asksForFolder path then throw .isDirectory
    if isTooLong name then throw .nameTooLong
    if d.hasFolder (place.step name) then throw .isDirectory
    return d.put { place := place.step name, content }

/-- The directory where every folder on the way of a path exists. -/
def addFoldersOf (d : Directory) (path : String) : Directory :=
  { d with folders := d.folders ++ (pathNames path).dropLast.scanl Place.step (pathStart path) }

/-- The directory where reading a path comes out as given. -/
def addOutcome (d : Directory) (path : String) : Except FileError String → Directory
  | .ok content =>
    let place := (pathNames path).foldl Place.step (pathStart path)
    (d.addFoldersOf path).put { place, content }
  | .error cause => { d with unreadable := d.unreadable ++ [(path, cause)] }

end Directory

end BranchingTime
