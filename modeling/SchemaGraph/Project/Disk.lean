/-!
Files as the program uses them: paths, and what is done with the files and directories they lead to.
-/

namespace SchemaGraph

/-- A path as it was given, and names below it. -/
structure Path where
  root : String
  names : List String := []
deriving DecidableEq, Repr

namespace Path

/-- A name below a path: a slash between them, unless the path is empty or ends with one. -/
def below (path name : String) : String :=
  if path.isEmpty || path.endsWith "/" then path ++ name else path ++ "/" ++ name

def text (path : Path) : String := path.names.foldl below path.root

/-- What is between the slashes of a text, empty texts too. -/
def pieces (text : String) : List String :=
  (text.toList.foldr addToFirst [[]]).map String.ofList
where
  /-- Puts a character in front of the first piece; a slash starts a piece of its own. -/
  addToFirst (c : Char) (pieces : List (List Char)) : List (List Char) :=
    match c, pieces with
    | '/', pieces => [] :: pieces
    | c, first :: rest => (c :: first) :: rest
    | c, [] => [[c]]

/-- The names that lead along a path, one after the other. -/
def steps (path : Path) : List String := pieces path.root ++ path.names

/-- A path that starts with a slash leads from the root of all files. -/
def isAbsolute (path : Path) : Bool := path.root.startsWith "/"

def maxBytes : Nat := 4095

def maxNameBytes : Nat := 255

def isUsable (path : Path) : Bool :=
  !path.text.isEmpty && path.text.utf8ByteSize ≤ maxBytes && !path.text.toList.contains '\x00'

end Path

/-- What is done with files. An operation that may fail says whether it was done. -/
structure Disk (m : Type → Type) where
  /-- A file or directory has this path. -/
  isThere : Path → m Bool
  /-- The text of a file; none if there is none that can be read as UTF-8. -/
  readText : Path → m (Option String)
  /-- Makes a directory and those it lies in. -/
  makeDirectories : Path → m Bool
  writeText : Path → String → m Bool
  /-- Gives a file another path and takes the place of a file that is there. -/
  rename : Path → Path → m Bool

end SchemaGraph
