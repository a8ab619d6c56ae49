import JvmAot.ClassPath
import JvmAot.Session.Compile

/-! # Configurations

What to compile and where to find it. -/

namespace JvmAot

/-- The text that is copied to the start of the output. -/
inductive Prologue where
  | text (contents : ByteArray)
  /-- The contents of a file, read when the program is compiled. -/
  | file (path : String)
  deriving Inhabited

namespace Prologue

/-- The text of a prologue. -/
def read (files : FileTree) : Prologue → Except Failure ByteArray
  | text contents => .ok contents
  | file path => Failure.locate "reading prologue" (files.read path)

end Prologue

/-- The settings of a compilation. -/
structure Config where
  /-- The directories that are searched for class files, in order. -/
  classPath : List String := ["."]
  /-- The class that compilation starts from, in slash or dotted form. It must be set. -/
  entry : String := ""
  prologue : Prologue := .text .empty
  deriving Inhabited

namespace Config

/-- Sets the class path. -/
def withClassPath (c : Config) (directories : List String) : Config :=
  { c with classPath := directories }

/-- Sets the entry class. -/
def withEntry (c : Config) (name : String) : Config :=
  { c with entry := name }

/-- Sets the prologue. -/
def withPrologue (c : Config) (contents : ByteArray) : Config :=
  { c with prologue := .text contents }

/-- Sets the file that the prologue is read from. The empty path stands for no prologue. -/
def withPrologueFile (c : Config) (path : String) : Config :=
  { c with prologue := if path = "" then .text .empty else .file path }

/-- The program of a configuration, unless it was called off before. -/
def compile (c : Config) (files : FileTree) (isCanceled : Bool) : Listing Session :=
  if isCanceled then .fail (Cause.canceled : Failure) {}
  else if c.entry = "" then .fail (Cause.noEntryClass : Failure) {}
  else
    match c.prologue.read files with
    | .error failure => .fail failure {}
    | .ok prologue => Session.compile (ClassPath.loader files c.classPath) prologue c.entry {}

end Config

end JvmAot
