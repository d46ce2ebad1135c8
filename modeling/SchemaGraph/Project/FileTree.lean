import SchemaGraph.Project.Disk

/-!
A tree of files and directories, on which all that is done with files can be done without a
computer's own. A place in the tree is the list of names from its root. A path is followed name by
name: each next name needs a directory to look in, so a path that leaves a file by `..`, or ends
behind a file with a slash, leads nowhere.
-/

namespace SchemaGraph

/-- A file with its text, none if its content is not UTF-8, or a directory. -/
inductive FileTree where
  | file (text : Option String)
  | directory (entries : List (String × FileTree))
deriving Inhabited

namespace FileTree

def subtree? (name : String) (entries : List (String × FileTree)) : Option FileTree :=
  entries.lookup name

/-- Puts an entry in the place of the one of its name, or beside the others. -/
def putEntry (name : String) (tree : FileTree) :
    List (String × FileTree) → List (String × FileTree)
  | [] => [(name, tree)]
  | (other, old) :: rest =>
    if other = name then (name, tree) :: rest else (other, old) :: putEntry name tree rest

def dropEntry (name : String) (entries : List (String × FileTree)) : List (String × FileTree) :=
  entries.filter fun entry => entry.1 ≠ name

def isDirectory : FileTree → Bool
  | .file _ => false
  | .directory _ => true

/-! ### Places -/

/-- What is at a place in the tree. -/
def find? : List String → FileTree → Option FileTree
  | [], tree => some tree
  | name :: names, .directory entries => (subtree? name entries).bind (find? names)
  | _ :: _, .file _ => none

def hasDirectory (place : List String) (tree : FileTree) : Bool :=
  (tree.find? place).any isDirectory

def text? (place : List String) (tree : FileTree) : Option String :=
  match tree.find? place with
  | some (.file text) => text
  | _ => none

/-- The tree with something new at a place; the directory that it is put in has to be there. -/
def put? : List String → FileTree → FileTree → Option FileTree
  | [], _, new => some new
  | [name], .directory entries, new => some (.directory (putEntry name new entries))
  | name :: names, .directory entries, new => do
    let sub ← subtree? name entries
    let sub ← sub.put? names new
    some (.directory (putEntry name sub entries))
  | _ :: _, .file _, _ => none

/-- The tree without what is at a place. -/
def remove? : List String → FileTree → Option FileTree
  | [], _ => none
  | [name], .directory entries =>
    (subtree? name entries).map fun _ => .directory (dropEntry name entries)
  | name :: names, .directory entries => do
    let sub ← subtree? name entries
    let sub ← remove? names sub
    some (.directory (putEntry name sub entries))
  | _ :: _, .file _ => none

/-- The tree with a file at a place, where no directory may be. -/
def putFile? (text : Option String) (place : List String) (tree : FileTree) : Option FileTree :=
  if tree.hasDirectory place then none else tree.put? place (.file text)

def removeFile? (place : List String) (tree : FileTree) : Option FileTree :=
  if tree.hasDirectory place then none else tree.remove? place

/-- The tree after a file was given another place. -/
def rename? (source target : List String) (tree : FileTree) : Option FileTree := do
  match ← tree.find? source with
  | .directory _ => none
  | .file text =>
    if tree.hasDirectory target then none
    else
      let tree ← tree.removeFile? source
      tree.putFile? text target

/-! ### Following a path -/

/-- Where a name leads from a directory: an empty name and a point stay, two points go up. -/
def enter? (tree : FileTree) (place : List String) (name : String) : Option (List String) :=
  if tree.hasDirectory place ∧ name.utf8ByteSize ≤ Path.maxNameBytes then
    some <|
      if name = "" ∨ name = "." then place
      else if name = ".." then place.dropLast
      else place ++ [name]
  else none

/-- Where names lead from a place. Nothing needs to be there yet under the last of them. -/
def follow? (tree : FileTree) (place names : List String) : Option (List String) :=
  names.foldlM tree.enter? place

def start (here : List String) (path : Path) : List String :=
  if path.isAbsolute then [] else here

/-- Where a path leads, seen from a directory. -/
def resolve? (here : List String) (path : Path) (tree : FileTree) : Option (List String) :=
  if path.isUsable then tree.follow? (start here path) path.steps else none

/-! ### Making directories -/

/-- Goes along names from a place and makes the directories that are missing; says whether they are
all there at the end. What was made before a failure stays. -/
def makeAlong : List String → List String → FileTree → Bool × FileTree
  | _, [], tree => (true, tree)
  | place, name :: names, tree =>
    match tree.enter? place name with
    | none => (false, tree)
    | some next =>
      match tree.find? next with
      | some (.directory _) => makeAlong next names tree
      | some (.file _) => (false, tree)
      | none =>
        -- a missing directory cannot be made under a path that ends with points behind its name
        if names ≠ [] ∧ ∀ rest ∈ names, rest = "." then (false, tree)
        else
          match tree.put? next (.directory []) with
          | none => (false, tree)
          | some tree => makeAlong next names tree

def makeDirectories (here : List String) (path : Path) (tree : FileTree) : Bool × FileTree :=
  if path.isUsable then makeAlong (start here path) (path.steps.filter (· ≠ "")) tree
  else (false, tree)

/-! ### A tree as a disk -/

/-- Does what changes the tree, if it can be done. -/
def attempt (change : FileTree → Option FileTree) : StateM FileTree Bool := fun tree =>
  match change tree with
  | some tree => (true, tree)
  | none => (false, tree)

/-- A tree as a disk; paths that do not start with a slash lead from the directory `here`. -/
def disk (here : List String) : Disk (StateM FileTree) where
  isThere path := fun tree =>
    (((tree.resolve? here path).bind fun place => tree.find? place).isSome, tree)
  readText path := fun tree => ((tree.resolve? here path).bind fun place => tree.text? place, tree)
  makeDirectories path := makeDirectories here path
  writeText path text := attempt fun tree => do
    tree.putFile? (some text) (← tree.resolve? here path)
  rename source target := attempt fun tree => do
    tree.rename? (← tree.resolve? here source) (← tree.resolve? here target)

end FileTree

end SchemaGraph
