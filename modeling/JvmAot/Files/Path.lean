/-! # Paths

Paths are texts whose components are separated by slashes. The functions here only look at the text and
not at any file: `Path.clean` takes `..` to leave the component before it. -/

namespace JvmAot.Path

/-- Whether a path starts at the root. -/
def isAbsolute (path : String) : Bool :=
  path.startsWith "/"

/-- The components of a path, with an empty one at each slash that follows none. -/
def components (path : String) : List String :=
  path.splitOn "/"

/-- Puts a component on a stack of components, the last one first. Below the root, `..` stays there. -/
def push (rooted : Bool) (stack : List String) (component : String) : List String :=
  if component = "" || component = "." then stack
  else if component = ".." then
    match stack with
    | [] => if rooted then [] else [".."]
    | last :: rest => if last = ".." then ".." :: stack else rest
  else component :: stack

/-- The shortest path that means the same if no component is a link. It is never empty. -/
def clean (path : String) : String :=
  let rooted := isAbsolute path
  let parts := ((components path).foldl (push rooted) []).reverse
  let text := (if rooted then "/" else "") ++ "/".intercalate parts
  if text = "" then "." else text

/-- A path below another one. An empty part is left out. -/
def join (directory path : String) : String :=
  if directory = "" then if path = "" then "" else clean path
  else clean (directory ++ "/" ++ path)

/-- The directory that a path lies in. -/
def directory (path : String) : String :=
  clean ("/".intercalate ((components path).dropLast ++ [""]))

/-- The paths of a list that are separated by colons. -/
def splitList (paths : String) : List String :=
  if paths = "" then [] else paths.splitOn ":"

end JvmAot.Path
