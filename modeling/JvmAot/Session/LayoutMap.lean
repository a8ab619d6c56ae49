import JvmAot.Session.Basic

/-! # Layout maps

The storage that a program uses, for runtime code written by hand and for debugging. -/

namespace JvmAot

/-- The storage of a declared field. -/
structure FieldEntry where
  name : String
  descriptor : String
  offset : Nat
  isStatic : Bool
  deriving DecidableEq, Repr, Inhabited

/-- The storage of a class, with names in dotted form. -/
structure ClassLayout where
  name : String
  superName : Option String
  isInterface : Bool
  /-- The size of instances in bytes. -/
  size : Nat
  /-- The symbol of the vtable, `none` for interfaces. -/
  vtableSymbol : Option String
  fields : List FieldEntry
  /-- The symbol of each slot from slot 1 on, `none` for abstract methods. -/
  vtable : List (Option String)
  deriving DecidableEq, Repr, Inhabited

/-- The storage of a program. -/
structure LayoutMap where
  staticWords : Nat
  arrayHeaderSize : Nat
  classes : List ClassLayout
  deriving DecidableEq, Repr, Inhabited

namespace ClassInfo

/-- The storage of a resolved class. -/
def classLayout (c : ClassInfo) : ClassLayout where
  name := ClassName.dotted c.name
  superName := c.superName.map ClassName.dotted
  isInterface := c.isInterface
  size := c.layout.size
  vtableSymbol := if c.isInterface then none else some (Symbol.ofVtable c.name)
  fields := c.fields.map fun f =>
    { name := f.name, descriptor := f.type.toText, offset := f.offset, isStatic := f.flags.isStatic }
  vtable := c.vtable.methods.map fun m => if m.decl.isAbstract then none else some m.symbol

end ClassInfo

namespace Session

/-- The storage of all resolved classes. -/
def layoutMap (s : Session) : LayoutMap where
  staticWords := s.staticWords
  arrayHeaderSize := (s.array.map (·.layout.size)).getD 0
  classes := s.classes.order.map ClassInfo.classLayout

end Session

end JvmAot
