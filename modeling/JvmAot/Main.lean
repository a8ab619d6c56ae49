import JvmAot.CommandLine.Inputs
import JvmAot.CommandLine.Run

/-! # The program

Takes the files that a run needs from the file system, runs it, and brings the changes back. -/

namespace JvmAot.Main

/-- The absolute path of a position. -/
def absolute (position : List String) : String :=
  "/" ++ "/".intercalate position

/-- Takes the node at a position. Below a searched directory only class files are read. -/
partial def take (isSearched : Bool) (position : List String) (tree : FileTree) : IO FileTree := do
  let path := (← IO.currentDir) / absolute position
  if ← path.isDir then
    let tree := tree.put position .directory
    if !isSearched then return tree
    (← path.readDir).foldlM (fun tree entry => take true (position ++ [entry.fileName]) tree) tree
  else if ← path.pathExists then
    let isRead := !isSearched || path.toString.endsWith ClassPath.extension
    let contents ← if isRead then IO.FS.readBinFile path else pure .empty
    return tree.put position (.file contents)
  else return tree

/-- Takes all nodes on the way along a path, and what is below its end if it is searched. -/
def follow (isSearched : Bool) (tree : FileTree) (path : String) : IO FileTree := do
  let start := if Path.isAbsolute path then [] else tree.workingDirectory
  let step := fun (position, tree) component => do
    let next := if component = "" || component = "." then position
      else if component = ".." then position.dropLast
      else position ++ [component]
    return (next, ← take false next tree)
  let (last, tree) ← (Path.components path).foldlM step (start, tree)
  if isSearched then take true last tree else return tree

/-- Takes the files that a run needs, as far as the tree tells which. -/
def gather (args : List String) (tree : FileTree) : IO FileTree := do
  let inputs := CommandLine.inputs tree args
  let tree ← inputs.searched.foldlM (follow true) tree
  inputs.single.foldlM (follow false) tree

/-- Brings the changes from one tree to another to the file system. -/
def store (before after : FileTree) : IO Unit := do
  for (position, node) in after.nodes.reverse do
    match node, before.get? position with
    | .directory, none => IO.FS.createDirAll (absolute position)
    | .file contents, old =>
      let isSame := match old with
        | some (.file known) => known == contents
        | _ => false
      if !isSame then IO.FS.writeBinFile (absolute position) contents
    | _, _ => pure ()
  for (position, _) in before.nodes do
    if (after.get? position).isNone then IO.FS.removeFile (absolute position)

end JvmAot.Main

open JvmAot in
/-- Runs the program. The project file is taken first, because it names further files. -/
def main (args : List String) : IO UInt32 := do
  let directory ← IO.currentDir
  let position := (Path.components directory.toString).filter (· ≠ "")
  let start : FileTree := ({ workingDirectory := position } : FileTree).put position .directory
  let tree ← Main.gather args (← Main.gather args start)
  match CommandLine.run tree args with
  | .error failure =>
    IO.eprintln failure.message
    return 2
  | .ok outcome =>
    Main.store tree outcome.files
    IO.eprint outcome.stderr
    (← IO.getStdout).write outcome.stdout
    return UInt32.ofNat outcome.exit
