/-!
# Files of a session

A session reads text files by path. What it needs of a file system is a function from paths to
texts or reasons why there is none. A file tree is a working directory that is held in memory
and answers as a file system does: a path is followed component by component, every component
but the last has to be a directory, and only the bytes of a text in UTF-8 can be read.

* `FileTree.follow`: where a path leads.
* `FileTree.read`: the text of a file.
-/

namespace BraceLang

/-- Why a file cannot be read. -/
inductive ReadError where
  | notFound
  | isDirectory
  | notADirectory
  /-- the bytes are no text in UTF-8 -/
  | notText
  /-- a path with a zero character -/
  | zeroInPath
  /-- any other failure, in the words of the system -/
  | other (text : String)
deriving DecidableEq, Repr

def ReadError.message : ReadError → String
  | notFound => "No such file or directory (os error 2)"
  | isDirectory => "Is a directory (os error 21)"
  | notADirectory => "Not a directory (os error 20)"
  | notText => "stream did not contain valid UTF-8"
  | zeroInPath => "file name contained an unexpected NUL byte"
  | other text => text

/-- The text of the file at a path. -/
abbrev Files := String → Except ReadError String

/-- What is at a place of a file tree. -/
inductive FileNode where
  | file (bytes : ByteArray)
  | directory

/-- A working directory: the nodes in it, each with the components of its path. The
directories on the way to a node need not be listed. -/
structure FileTree where
  nodes : List (List String × FileNode) := []

namespace FileTree

/-- The components of a path. -/
def components (path : String) : List String :=
  (path.toList.splitOn '/').map String.ofList

/-- A place in the tree, or anywhere outside. -/
inductive Place where
  | inside (path : List String)
  | outside

/-- Add a node at a path. -/
def insert (tree : FileTree) (path : String) (node : FileNode) : FileTree :=
  { nodes := (components path, node) :: tree.nodes }

/-- What is at a place. What is outside counts as a directory without entries. -/
def node? (tree : FileTree) : Place → Option FileNode
  | .outside => some .directory
  | .inside path =>
    match tree.nodes.find? (·.1 == path) with
    | some (_, node) => some node
    | none =>
      if path.isEmpty || tree.nodes.any (path.isPrefixOf ·.1) then some .directory else none

/-- The place that a component leads to from a directory. -/
def enter (place : Place) (name : String) : Option Place :=
  if name = "" ∨ name = "." then some place
  else match place with
    | .outside => if name = ".." then some .outside else none
    | .inside path =>
      if name = ".." then
        some (if path.isEmpty then .outside else .inside path.dropLast)
      else some (.inside (path ++ [name]))

/-- Follow the components of a path from a place. -/
def follow (tree : FileTree) : Place → List String → Except ReadError FileNode
  | place, [] =>
    match tree.node? place with
    | some node => .ok node
    | none => .error .notFound
  | place, name :: names =>
    match tree.node? place with
    | some .directory =>
      match enter place name with
      | some place => tree.follow place names
      | none => .error .notFound
    | some (.file _) => .error .notADirectory
    | none => .error .notFound

/-- The text of a node. -/
def textOf : FileNode → Except ReadError String
  | .directory => .error .isDirectory
  | .file bytes =>
    match String.fromUTF8? bytes with
    | some text => .ok text
    | none => .error .notText

/-- Read a file of the tree. Paths that start with a slash lead outside. -/
def read (tree : FileTree) : Files := fun path =>
  if path.toList.contains '\x00' then .error .zeroInPath
  else if path = "" then .error .notFound
  else
    let start := if path.toList.head? = some '/' then Place.outside else .inside []
    tree.follow start (components path) >>= textOf

end FileTree

end BraceLang
