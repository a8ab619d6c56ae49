import JvmAot.Failure
import JvmAot.Files.Path

/-! # File trees

A file tree is the part of a file system that a run sees: files and directories by their absolute
position, and the working directory that relative paths start from. Looking up a path follows it
component by component, so `..` leaves a directory that must exist. -/

namespace JvmAot

/-- A file with its contents, or a directory. -/
inductive FileNode where
  | file (contents : ByteArray)
  | directory
  deriving Inhabited

/-- Files and directories. -/
structure FileTree where
  /-- The nodes below the root by position. -/
  nodes : List (List String × FileNode) := []
  /-- The position of the working directory. -/
  workingDirectory : List String := []
  deriving Inhabited

namespace FileTree

/-- The longest name of a component in bytes. -/
def longestName : Nat := 255

/-- The longest path in bytes. -/
def longestPath : Nat := 4095

/-- The node at a position. -/
def get? (t : FileTree) (position : List String) : Option FileNode :=
  if position = [] then some .directory else t.nodes.lookup position

/-- Sets the node at a position. -/
def set (t : FileTree) (position : List String) (node : FileNode) : FileTree :=
  { t with nodes := (position, node) :: t.nodes.filter (·.1 ≠ position) }

/-- Takes away the node at a position. -/
def erase (t : FileTree) (position : List String) : FileTree :=
  { t with nodes := t.nodes.filter (·.1 ≠ position) }

/-- Sets the node at a position and makes the directories that it lies in. -/
def put (t : FileTree) (position : List String) (node : FileNode) : FileTree :=
  let parents := (List.range position.length).map position.take
  let missing := parents.filter fun p => (t.get? p).isNone
  (missing.foldl (fun t p => t.set p .directory) t).set position node

/-- The total size of all files in bytes. -/
def size (t : FileTree) : Nat :=
  t.nodes.foldl (fun n node => match node.2 with | .file contents => n + contents.size | .directory => n) 0

/-- Whether there is a directory at a position. -/
def isDirectory (t : FileTree) (position : List String) : Bool :=
  match t.get? position with
  | some .directory => true
  | _ => false

/-- The position that some components lead to. -/
def walk (t : FileTree) (position : List String) : List String → Except Refusal (List String)
  | [] => .ok position
  | component :: rest =>
    if !t.isDirectory position then .error .notADirectory
    else if component = "" || component = "." then t.walk position rest
    else if component = ".." then t.walk position.dropLast rest
    else if longestName < component.utf8ByteSize then .error .nameTooLong
    else
      let next := position ++ [component]
      if (t.get? next).isNone then .error .notFound else t.walk next rest

/-- The components of a path that can name a file, and the position that they start from. -/
def start (t : FileTree) (path : String) : Except Refusal (List String × List String) :=
  if path = "" then .error .notFound
  else if path.contains '\x00' then .error .invalidArgument
  else if longestPath < path.utf8ByteSize then .error .nameTooLong
  else .ok (if Path.isAbsolute path then [] else t.workingDirectory, Path.components path)

/-- The position that a path leads to. -/
def find (t : FileTree) (path : String) : Except Refusal (List String) := do
  let (position, components) ← t.start path
  t.walk position components

/-- The position of the directory that the last component of a path is looked up in, and that component. -/
def findParent (t : FileTree) (path : String) : Except Refusal (List String × String) := do
  let (position, components) ← t.start path
  let parent ← t.walk position components.dropLast
  if t.isDirectory parent then return (parent, components.getLastD "")
  else throw .notADirectory

/-- The contents of the file at a path. -/
def read (t : FileTree) (path : String) : Except Failure ByteArray :=
  match t.find path with
  | .error reason => .error (Cause.file "open" path reason : Failure)
  | .ok position =>
    match t.get? position with
    | some (.file contents) => .ok contents
    | _ => .error (Cause.file "read" path .isADirectory : Failure)

/-- The position at which opening a file for writing puts it. -/
def findNew (t : FileTree) (path : String) : Except Refusal (List String) := do
  let (parent, name) ← t.findParent path
  if name = "" || name = "." || name = ".." then throw .isADirectory
  else if longestName < name.utf8ByteSize then throw .nameTooLong
  else if t.isDirectory (parent ++ [name]) then throw .isADirectory
  else return parent ++ [name]

/-- Writes a file, in place of one that is there. -/
def write (t : FileTree) (path : String) (contents : ByteArray) : Except Failure FileTree :=
  match t.findNew path with
  | .error reason => .error (Cause.file "open" path reason : Failure)
  | .ok position => .ok (t.set position (.file contents))

/-- Opens a file to add to it. Unlike writing, this keeps the contents of a file that is there. -/
def touch (t : FileTree) (path : String) : Except Failure FileTree :=
  match t.findNew path with
  | .error reason => .error (Cause.file "open" path reason : Failure)
  | .ok position => .ok (if (t.get? position).isSome then t else t.set position (.file .empty))

/-- Takes away the file at a path, if there is one. -/
def remove (t : FileTree) (path : String) : FileTree :=
  match t.find path with
  | .ok position => if t.isDirectory position then t else t.erase position
  | .error _ => t

/-- A path without the slashes at its end. -/
def trimSlashes (path : String) : String :=
  String.ofList (path.toList.reverse.dropWhile (· = '/')).reverse

/-- Makes a directory. -/
def makeDirectory (t : FileTree) (path : String) : Except Failure FileTree :=
  let refuse (reason : Refusal) : Except Failure FileTree :=
    .error (Cause.file "mkdir" path reason : Failure)
  match t.findParent (if trimSlashes path = "" then path else trimSlashes path) with
  | .error reason => refuse reason
  | .ok (parent, name) =>
    if name = "" || name = "." || name = ".." then refuse .alreadyExists
    else if longestName < name.utf8ByteSize then refuse .nameTooLong
    else if (t.get? (parent ++ [name])).isSome then refuse .alreadyExists
    else .ok (t.set (parent ++ [name]) .directory)

/-- The part of a path before its last component, without the slash between them. -/
def parentPart (path : String) : String :=
  String.ofList (((path.toList.reverse.dropWhile (· = '/')).dropWhile (· ≠ '/')).drop 1).reverse

/-- Makes a directory and those that it lies in, at most `fuel` of them, where they are missing. -/
def makeDirectoriesWithin : (fuel : Nat) → String → FileTree → Except Failure FileTree
  | 0, _, t => .ok t
  | fuel + 1, path, t =>
    match t.find path with
    | .ok position =>
      if t.isDirectory position then .ok t
      else .error (Cause.file "mkdir" path .notADirectory : Failure)
    | .error _ => do
      let parent := parentPart path
      let t ← if parent = "" then pure t else makeDirectoriesWithin fuel parent t
      match t.makeDirectory path with
      | .ok t => .ok t
      | .error failure =>
        match t.find path with
        | .ok position => if t.isDirectory position then .ok t else .error failure
        | .error _ => .error failure

/-- Makes a directory and those that it lies in where they are missing. -/
def makeDirectories (t : FileTree) (path : String) : Except Failure FileTree :=
  makeDirectoriesWithin (path.length + 1) path t

end FileTree

end JvmAot
