import JvmAot.ClassFile.Decode
import JvmAot.Heap.Labels
import JvmAot.Session.ClassTable

/-! # Sessions

A session is the state of one run of the compiler: the classes and array types resolved so far, the
pool of static fields, and the runtime objects with their labels. -/

namespace JvmAot

/-- Where classes come from. -/
structure Loader where
  /-- The class with a name in slash form. -/
  load : String → Except Failure ClassFile
  /-- A bound on the number of names that are loaded. -/
  limit : Nat

namespace Loader

/-- Classes from a table of class files by name. -/
def ofTable (files : List (String × ByteArray)) : Loader where
  load name :=
    match files.lookup name with
    | some bytes => ClassFile.decode bytes
    | none => .error (Cause.classNotFound name : Failure)
  limit := files.length

end Loader

/-- The state of one run of the compiler. -/
structure Session where
  /-- The resolved classes. -/
  classes : ClassTable := {}
  /-- The names of the classes whose resolution has begun and not ended. -/
  resolving : List String := []
  /-- The metadata of the resolved array types by descriptor. -/
  arrays : List (String × ObjectId) := []
  /-- The pool of static fields. It is sealed when resolution is closed. -/
  statics : FieldAllocator := {}
  /-- The root class, which arrays inherit from. -/
  object : Option ClassInfo := none
  /-- The class that gives the layout of array headers. -/
  array : Option ClassInfo := none
  /-- The class of strings. -/
  string : Option ClassInfo := none
  /-- The names of the classes that were compiled or are being compiled. -/
  compiled : List String := []
  /-- The string objects of constants by class and pool slot. -/
  strings : List ((String × Nat) × ObjectId) := []
  heap : Heap := {}
  labels : LabelTable := {}
  deriving DecidableEq, Repr, Inhabited

namespace Session

/-- The name of the root class. -/
def objectClass : String := "java/lang/Object"

/-- The name of the class that gives the layout of array headers. -/
def arrayClass : String := "java/lang/Array"

/-- The name of the class of strings. -/
def stringClass : String := "java/lang/String"

/-- Whether no further class or array type can be resolved. -/
def isClosed (s : Session) : Bool :=
  s.statics.isSealed

/-- The size of the pool of static fields in words. -/
def staticWords (s : Session) : Nat :=
  s.statics.layout.words

/-- Ends resolution. -/
def close (s : Session) : Session :=
  { s with statics := { s.statics with isSealed := true } }

/-- The offset of element 0 in every array. -/
def arrayHeaderSize (s : Session) : Except Failure Nat :=
  match s.array with
  | some c => .ok c.layout.size
  | none => .error (Cause.absent "the array class is not resolved" : Failure)

end Session

end JvmAot
