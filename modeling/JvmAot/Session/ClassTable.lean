import JvmAot.Session.ClassInfo

/-! # The class table

The resolved classes by name. A class is resolved after its superclass, so the superclasses of a class
are found among the classes that were there before it. -/

namespace JvmAot

/-- The resolved classes, the latest one first. -/
structure ClassTable where
  latest : List ClassInfo := []
  deriving DecidableEq, Repr, Inhabited

namespace ClassTable

/-- The classes in the order of resolution, superclasses first. -/
def order (t : ClassTable) : List ClassInfo :=
  t.latest.reverse

/-- The number of classes. -/
def size (t : ClassTable) : Nat :=
  t.latest.length

/-- The class with a given name. -/
def find? (t : ClassTable) (name : String) : Option ClassInfo :=
  t.latest.find? (·.name == name)

/-- Adds a class. -/
def insert (t : ClassTable) (c : ClassInfo) : ClassTable :=
  ⟨c :: t.latest⟩

/-- A class by its name, its superclass, and so on to the root, in a list with the latest class first. -/
def chainIn : List ClassInfo → Option String → List ClassInfo
  | _, none => []
  | [], some _ => []
  | c :: older, some name =>
    if c.name == name then c :: chainIn older c.superName else chainIn older (some name)

/-- A class, its superclass, and so on to the root. -/
def chain (t : ClassTable) (c : ClassInfo) : List ClassInfo :=
  c :: chainIn t.latest c.superName

/-- The field with a given name that a class declares or inherits. Private fields are not inherited. -/
def findField (t : ClassTable) (c : ClassInfo) (name : String) : Except Failure FieldInfo :=
  let own := c.fields.find? (·.name == name)
  let inherited := (chainIn t.latest c.superName).findSome? fun k =>
    k.fields.find? fun f => f.name == name && !f.flags.isPrivate
  match own <|> inherited with
  | some f => .ok f
  | none => .error (Cause.fieldNotFound c.name name : Failure)

/-- The method with a given name and descriptor that a class or one of its superclasses declares. -/
def findMethod (t : ClassTable) (c : ClassInfo) (name descriptor : String) :
    Except Failure MethodInfo :=
  let found := (t.chain c).findSome? fun k =>
    k.methods.find? fun m => m.decl.name == name && m.decl.descriptor == descriptor
  match found with
  | some m => .ok m
  | none => .error (Cause.methodNotFound c.name name descriptor : Failure)

/-- The instance fields of a class and its superclasses, those of subclasses first, so that a field
takes a value before a field of the same name that it hides. -/
def instanceFields (t : ClassTable) (c : ClassInfo) : List FieldInfo :=
  (t.chain c).flatMap fun k => k.fields.filter fun f => !f.flags.isStatic

end ClassTable

end JvmAot
