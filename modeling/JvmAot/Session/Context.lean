import JvmAot.Heap.Block
import JvmAot.Lowering.Question
import JvmAot.Session.Resolve
import JvmAot.Text.Utf16

/-! # What a session tells others

A session answers the questions of lowering, resolving classes on the way, and says how runtime objects
are laid out. -/

namespace JvmAot.Session

variable (loader : Loader)

/-- Adds a string object to a heap, which is a string instance around a character array. The array goes
into the first field for one that the string class declares. -/
def newString (string : Option ClassInfo) (units : List UInt16) (h : Heap) :
    Except Failure (ObjectId × Heap) :=
  match string with
  | none => .error (Cause.absent "the string class is not resolved" : Failure)
  | some c =>
    let holder := c.fields.find? fun f =>
      !f.flags.isStatic && f.type.dimension == 1 && f.type.base == .char
    match holder with
    | none => .error (Cause.noCharactersField stringClass : Failure)
    | some f =>
      let (characters, h) := h.allocate (.characters units)
      .ok (h.allocate (.ofClass stringClass [(f.name, .object characters)]))

/-- The object of the string constant in a pool slot of the class `className`. -/
def stringObject (className : String) (slot : Nat) (units : List UInt16) (s : Session) :
    Except Failure ObjectId × Session :=
  match s.strings.lookup (className, slot) with
  | some id => (.ok id, s)
  | none =>
    match newString s.string units s.heap with
    | .error failure => (.error failure, s)
    | .ok (id, heap) => (.ok id, { s with heap, strings := ((className, slot), id) :: s.strings })

/-- The label of a value. -/
def label (v : Value) (s : Session) : String × Session :=
  let (label, labels) := s.labels.get v
  (label, { s with labels })

/-- How a method of `c` is called. The slot is that of its key in the vtable of `c`. -/
def methodRef (c : ClassInfo) (m : MethodInfo) : MethodRef :=
  { className := m.owner, isStatic := m.decl.flags.isStatic,
    slot :=
      if m.decl.flags.isStatic then none
      else c.vtable.slot? (slotKey m.decl.name m.decl.descriptor) }

/-- Answers a question about the class `owner` once it is resolved. -/
def answerFor {α : Type} (owner : String) (s : Session)
    (answer : ClassTable → ClassInfo → Except Failure α) : Except Failure α × Session :=
  match s.resolveClass loader owner with
  | (.error failure, s) => (.error failure, s)
  | (.ok c, s) => (answer s.classes c, s)

/-- The field that `owner` declares or inherits. -/
def findField (owner name : String) (s : Session) : Except Failure FieldInfo × Session :=
  s.answerFor loader owner fun classes c => classes.findField c name

/-- The method that `owner` declares or inherits. -/
def findMethod (owner name descriptor : String) (s : Session) : Except Failure MethodInfo × Session :=
  s.answerFor loader owner fun classes c => classes.findMethod c name descriptor

/-- Answers the questions that arise when the class `className` is compiled. -/
def answer (className : String) : (q : Question) → Session → Except Failure q.Answer × Session
  | .field owner name, s =>
    s.answerFor loader owner fun classes c => (classes.findField c name).map fun f =>
      { offset := f.offset, type := f.type, isStatic := f.flags.isStatic }
  | .method owner name descriptor, s =>
    s.answerFor loader owner fun classes c =>
      (classes.findMethod c name descriptor).map (methodRef c)
  | .instanceSize owner, s =>
    s.answerFor loader owner fun _ c => .ok c.layout.size
  | .arrayVtable descriptor, s =>
    match s.resolveArray loader descriptor with
    | (.error failure, s) => (.error failure, s)
    | (.ok metadata, s) =>
      let (label, s) := s.label (s.heap.vtable metadata)
      (.ok label, s)
  | .stringLabel slot units, s =>
    match s.stringObject className slot units with
    | (.error failure, s) => (.error failure, s)
    | (.ok id, s) =>
      let (label, s) := s.label (.object id)
      (.ok label, s)

/-- The session as the context of the class `className`. -/
def context (className : String) : Context Session where
  answer := answer loader className

/-- The layout of instances of a class. -/
def objectLayout (t : ClassTable) (c : ClassInfo) : ObjectLayout :=
  { metadata := c.metadata, size := c.layout.size,
    fields := (t.instanceFields c).map fun f =>
      { name := f.name, offset := f.offset, type := f.type } }

/-- What a closed session says about runtime objects. -/
def objectResolver (s : Session) : ObjectResolver where
  arrayMetadata descriptor := (s.resolveArray loader descriptor).1
  classLayout name := (s.resolveClass loader name).1.map (objectLayout s.classes)
  newString text h := newString s.string (Utf16.encode text) h

end JvmAot.Session
