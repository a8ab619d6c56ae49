import JvmAot.Files.Tree
import JvmAot.Session.Basic

/-! # Class paths

A class path is a list of directories. A class is read from the first one that has its file. -/

namespace JvmAot.ClassPath

/-- The end of the names of class files. -/
def extension : String := ".class"

/-- The path of the file of a class below a directory. -/
def filePath (directory name : String) : String :=
  Path.join directory (ClassName.slashed name ++ extension)

/-- The class with a given name. A file that is there and cannot be read ends the search. -/
def load (files : FileTree) (name : String) : List String → Except Failure ClassFile
  | [] => .error (Cause.classNotFound name : Failure)
  | directory :: rest =>
    let path := filePath directory name
    match files.read path with
    | .ok bytes => Failure.locate ("decoding " ++ path) (ClassFile.decode bytes)
    | .error failure =>
      if failure.cause = .file "open" path .notFound then load files name rest
      else .error (failure.within ("reading " ++ path))

/-- The classes on a class path. Each name that a class refers to takes some of the bytes of its file,
and four names come from elsewhere: that of the entry class and those every program needs. -/
def loader (files : FileTree) (directories : List String) : Loader where
  load name := load files name directories
  limit := files.size + 4

end JvmAot.ClassPath
