import JvmAot.ClassFile.Basic
import JvmAot.Heap.Basic
import JvmAot.Layout.Fields
import JvmAot.Layout.Vtable
import JvmAot.Symbol

/-! # Resolved classes

A resolved class has storage for its fields, vtable slots for its virtual methods and metadata in the
heap. None of this changes once the class is resolved; only the contents of its vtable object are set
later, when the class is compiled. -/

namespace JvmAot

/-- A field with its storage. -/
structure FieldInfo where
  /-- The class that declares the field. -/
  owner : String
  name : String
  flags : AccessFlags
  type : FieldType
  /-- The byte offset in the object, or in the pool of static fields. -/
  offset : Nat
  deriving DecidableEq, Repr, Inhabited

/-- A method in its class. -/
structure DeclaredMethod where
  /-- The class that declares the method. -/
  owner : String
  /-- The place of the method among those of its class. -/
  index : Nat
  decl : MethodDecl
  type : MethodType
  deriving DecidableEq, Repr, Inhabited

namespace DeclaredMethod

/-- The label of the method body. -/
def symbol (m : DeclaredMethod) : String :=
  Symbol.ofMethod m.owner m.decl.name m.decl.descriptor

/-- What a vtable slot with this method holds. Abstract methods have no body and leave it null. -/
def vtableEntry (m : DeclaredMethod) : Value :=
  if m.decl.isAbstract then .null else .symbol m.symbol

end DeclaredMethod

/-- A method with its vtable slot. -/
structure MethodInfo extends DeclaredMethod where
  /-- The slot, `none` for static methods and initializers. -/
  slot : Option Nat
  deriving DecidableEq, Repr, Inhabited

/-- A resolved class. -/
structure ClassInfo where
  /-- The name in slash form that the class was asked for by. -/
  name : String
  /-- The name of the superclass, `none` for a root class. -/
  superName : Option String
  flags : AccessFlags
  /-- The declared fields. -/
  fields : List FieldInfo
  /-- The declared methods. -/
  methods : List MethodInfo
  /-- The storage of instances, inherited fields included. -/
  layout : FieldLayout
  /-- The vtable slots, inherited ones included. -/
  vtable : Vtable DeclaredMethod
  /-- The metadata in the heap. -/
  metadata : ObjectId
  deriving DecidableEq, Repr, Inhabited

namespace ClassInfo

/-- Whether the class is an interface. -/
def isInterface (c : ClassInfo) : Bool :=
  c.flags.isInterface

/-- The contents of the vtable object of the class. -/
def vtableContents (c : ClassInfo) (metadata : ObjectId) : List Value :=
  c.vtable.build (.object metadata) DeclaredMethod.vtableEntry

end ClassInfo

/-- Gives storage to the fields that `owner` declares, instance fields after the inherited ones and
static fields in the common pool. The pool keeps what was given out before a failure. -/
def allocateFields (owner : String) :
    List FieldDecl → FieldLayout → FieldAllocator →
      Except Failure (List FieldInfo × FieldLayout) × FieldAllocator
  | [], layout, statics => (.ok ([], layout), statics)
  | f :: rest, layout, statics =>
    match FieldType.parse f.descriptor with
    | .error failure => (.error failure, statics)
    | .ok type =>
      let info (offset : Nat) : FieldInfo := { owner, name := f.name, flags := f.flags, type, offset }
      if f.flags.isStatic then
        match statics.allocate type with
        | .error failure => (.error failure, statics)
        | .ok (offset, statics) =>
          let (result, statics) := allocateFields owner rest layout statics
          (result.map fun (fields, layout) => (info offset :: fields, layout), statics)
      else
        let (offset, layout) := layout.allocate type
        let (result, statics) := allocateFields owner rest layout statics
        (result.map fun (fields, layout) => (info offset :: fields, layout), statics)

/-- Gives vtable slots to the virtual methods among those that `owner` declares, of which the first
one has the given index. -/
def allocateMethods (owner : String) :
    (index : Nat) → List MethodDecl → Vtable DeclaredMethod →
      Except Failure (List MethodInfo × Vtable DeclaredMethod)
  | _, [], vtable => .ok ([], vtable)
  | index, decl :: rest, vtable =>
    match MethodType.parse decl.descriptor with
    | .error failure => .error failure
    | .ok type =>
      let method : DeclaredMethod := { owner, index, decl, type }
      let (slot, vtable) : Option Nat × Vtable DeclaredMethod :=
        if decl.isVirtual then
          let (slot, vtable) := vtable.allocate (slotKey decl.name decl.descriptor) method
          (some slot, vtable)
        else (none, vtable)
      (allocateMethods owner (index + 1) rest vtable).map fun (methods, vtable) =>
        ({ toDeclaredMethod := method, slot } :: methods, vtable)

end JvmAot
