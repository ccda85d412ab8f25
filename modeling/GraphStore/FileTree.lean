import GraphStore.Contents

/-!
# Files and directories

* `Location` : the names that lead from the top directory to a file or directory;
* `pathNames`, `pathBelow` : the names of a path, and a path as spelled from a directory;
* `FileTree` : what is found at each location;
* `FileTree.locate?` : the location a path leads to, which need not exist itself;
* `FileTree.makeDirectory`, `FileTree.writeFile` : what can be put into a tree besides stores.

A path is read name by name. Every name but the last has to lead to a directory, so different
spellings may lead to one location. A path that is too long leads nowhere, however short another
spelling of it is.
-/

namespace GraphStore

/-- The names that lead from the top directory to a file or directory. -/
abbrev Location := List String

inductive FileKind where
  | store (contents : Contents)
  | directory
  | other

/-- What is found at each location. The top directory is always there. -/
structure FileTree where
  kinds : Table Location FileKind := .ofList [([], .directory)]
  /-- The most bytes a path may be spelled with. -/
  pathLimit : Nat := 4095

/-- The names a path is spelled with; between two slashes side by side, and after one at the
end, the name is empty. -/
def pathNames (path : String) : List String :=
  (path.toList.splitOnP (· == '/')).map String.ofList

/-- Whether a file may have a name: at most 255 bytes, none of them zero. -/
def isFileName (name : String) : Bool := name.utf8ByteSize ≤ 255 && !name.toList.contains '\x00'

/-- A path without the names at its beginning that stay where they are: empty ones and dots. -/
def trimPath : List Char → List Char
  | '/' :: rest => trimPath rest
  | '.' :: '/' :: rest => trimPath rest
  | rest => rest

def pathBelow (directory path : String) : String :=
  .ofList (trimPath (path.toList.drop directory.length))

namespace FileTree

def get? (tree : FileTree) (place : Location) : Option FileKind := tree.kinds.get? place

def contains (tree : FileTree) (place : Location) : Bool := tree.kinds.contains place

def put (tree : FileTree) (place : Location) (kind : FileKind) : FileTree :=
  { tree with kinds := tree.kinds.insert place kind }

def isDirectory (tree : FileTree) (place : Location) : Bool :=
  tree.get? place matches some .directory

/-- The location a name leads to from a directory: an empty name and a dot stay, two dots lead to
the directory above. -/
def step? (tree : FileTree) (place : Location) (name : String) : Option Location :=
  if !tree.isDirectory place then none
  else if name = "" ∨ name = "." then some place
  else if name = ".." then some place.dropLast
  else if isFileName name then some (place ++ [name])
  else none

def names? (tree : FileTree) (path : String) : Option (List String) :=
  if path.utf8ByteSize ≤ tree.pathLimit then some (pathNames path) else none

def locate? (tree : FileTree) (path : String) : Option Location := do
  (← tree.names? path).foldlM tree.step? []

def find? (tree : FileTree) (path : String) : Option Location :=
  (tree.locate? path).filter tree.contains

def makeDirectoriesFrom (tree : FileTree) (place : Location) : List String → FileTree
  | [] => tree
  | name :: rest =>
    match tree.step? place name with
    | none => tree
    | some next =>
      (if tree.contains next then tree else tree.put next .directory).makeDirectoriesFrom next rest

/-- The tree with a directory at a path, and at every name of it where nothing is yet. -/
def makeDirectory (tree : FileTree) (path : String) : FileTree :=
  match tree.names? path with
  | some names => tree.makeDirectoriesFrom [] names
  | none => tree

def writeFile (tree : FileTree) (path : String) : FileTree :=
  match tree.locate? path with
  | some place => if tree.isDirectory place then tree else tree.put place .other
  | none => tree

end FileTree

end GraphStore
