import JvmAot.Bytecode.Instruction

/-! # Classes

A class as its file declares it: names, flags, fields, and methods with their bodies. -/

namespace JvmAot

/-- The access flags of classes, fields and methods. -/
structure AccessFlags where
  bits : Nat
  deriving DecidableEq, Repr, Inhabited

namespace AccessFlags

def isPrivate (f : AccessFlags) : Bool := f.bits.testBit 1
def isStatic (f : AccessFlags) : Bool := f.bits.testBit 3
def isNative (f : AccessFlags) : Bool := f.bits.testBit 8
def isInterface (f : AccessFlags) : Bool := f.bits.testBit 9

end AccessFlags

/-- A field as declared. -/
structure FieldDecl where
  flags : AccessFlags
  name : String
  descriptor : String
  deriving DecidableEq, Repr, Inhabited

/-- A method as declared. -/
structure MethodDecl where
  flags : AccessFlags
  name : String
  descriptor : String
  /-- The body, `none` for abstract and native methods. -/
  code : Option Code
  deriving DecidableEq, Repr, Inhabited

namespace MethodDecl

/-- The name of instance initializers. -/
def constructorName : String := "<init>"

/-- Whether a method is an instance or class initializer. -/
def isInitializer (m : MethodDecl) : Bool :=
  m.name == constructorName || m.name == "<clinit>"

/-- Whether a method is dispatched through the vtable. -/
def isVirtual (m : MethodDecl) : Bool :=
  !m.flags.isStatic && !m.isInitializer

/-- Whether a method has a body to compile. Initializers have none. -/
def body? (m : MethodDecl) : Option Code :=
  if m.flags.isNative || m.isInitializer then none else m.code

/-- Whether a method has neither a body nor one that the runtime provides. -/
def isAbstract (m : MethodDecl) : Bool :=
  m.code.isNone && !m.flags.isNative

end MethodDecl

/-- A class file. -/
structure ClassFile where
  minor : Nat
  major : Nat
  flags : AccessFlags
  /-- The name in slash form. -/
  name : String
  /-- The name of the superclass, `none` for the root class. -/
  superName : Option String
  interfaces : List String
  fields : List FieldDecl
  methods : List MethodDecl
  deriving DecidableEq, Repr, Inhabited

end JvmAot
