import JvmAot.Descriptor.FieldType
import JvmAot.Text.Utf16

/-! # Runtime objects

The objects that a compiled program starts with: arrays, instances and the metadata of its classes.
They live in a `Heap` and are known by their place in it, so two equal strings are two objects unless
they have the same place. -/

namespace JvmAot

/-- The place of an object in a heap. -/
abbrev ObjectId := Nat

/-- The widths of integer values. -/
inductive IntType where
  | int | int8 | int16 | int32 | int64 | uint | uint8 | uint16 | uint32 | uint64
  deriving DecidableEq, Repr, Inhabited

namespace IntType

/-- The name of an integer type in messages. -/
def name : IntType → String
  | int => "int"
  | int8 => "int8"
  | int16 => "int16"
  | int32 => "int32"
  | int64 => "int64"
  | uint => "uint"
  | uint8 => "uint8"
  | uint16 => "uint16"
  | uint32 => "uint32"
  | uint64 => "uint64"

/-- All integer types. -/
def all : List IntType := [int, int8, int16, int32, int64, uint, uint8, uint16, uint32, uint64]

/-- The number of bits. -/
def bits : IntType → Nat
  | int8 | uint8 => 8
  | int16 | uint16 => 16
  | int32 | uint32 => 32
  | int | int64 | uint | uint64 => 64

/-- Whether the numbers of the type have a sign. -/
def isSigned : IntType → Bool
  | int | int8 | int16 | int32 | int64 => true
  | uint | uint8 | uint16 | uint32 | uint64 => false

/-- A number cut to the bits of the type. -/
def wrap (type : IntType) (n : Int) : Int :=
  if type.isSigned then n.bmod (1 <<< type.bits) else n % (1 <<< type.bits : Nat)

/-- Whether every number of the type is a signed 64-bit number, and so the value of some field. -/
def isFieldValue : IntType → Bool
  | uint | uint64 => false
  | _ => true

end IntType

/-- What a field or an element can hold. Only objects and the null reference are runtime values; numbers
and truth values are meant for primitive fields, and symbols stand for what has a label elsewhere. -/
inductive Value where
  | null
  | object (id : ObjectId)
  /-- The vtable of metadata that has none. -/
  | missingVtable
  | symbol (name : String)
  | text (text : String)
  | bool (value : Bool)
  | int (type : IntType) (value : Int)
  deriving DecidableEq, Repr, Inhabited

/-- The kinds of types that metadata describes. -/
inductive MetadataKind where
  | classType | interfaceType | objectArray | primitiveArray
  deriving DecidableEq, Repr, Inhabited

namespace MetadataKind

/-- The number of a kind in the running program. -/
def number : MetadataKind → Nat
  | classType => 0
  | interfaceType => 1
  | objectArray => 2
  | primitiveArray => 3

/-- The kind in words. -/
def name : MetadataKind → String
  | classType => "class"
  | interfaceType => "interface"
  | objectArray => "object array"
  | primitiveArray => "primitive array"

/-- The kind with a given number, of which the low eight bits count, in words. -/
def nameOfNumber (n : Int) : String :=
  match [classType, interfaceType, objectArray, primitiveArray][(n % 256).toNat]? with
  | some kind => kind.name
  | none => "unknown"

end MetadataKind

/-- The runtime shape of a class, an interface or an array type. -/
structure Metadata where
  kind : MetadataKind
  /-- The class name in slash form, or the array descriptor. -/
  name : String
  /-- The metadata of the superclass. -/
  parent : Option ObjectId := none
  /-- The vtable, an object of its own. Interfaces have none. -/
  vtable : Option ObjectId := none
  /-- The metadata of the elements of an object array. -/
  element : Option ObjectId := none
  /-- The element type of a primitive array. -/
  elementType : Option BaseType := none
  /-- The string object with the name, once it is needed. -/
  nameString : Option ObjectId := none
  deriving DecidableEq, Repr, Inhabited

/-- An object of the running program. -/
inductive Object where
  /-- An array of primitive elements; numbers are cut to the element width when they are written. -/
  | primitiveArray (element : BaseType) (values : List Int)
  /-- An array of references with its array type. -/
  | objectArray (type : String) (elements : List Value)
  /-- An instance of a class with the values of some fields. All other fields are zero. -/
  | ofClass (className : String) (fields : List (String × Value))
  | metadata (metadata : Metadata)
  deriving DecidableEq, Repr, Inhabited

namespace Object

/-- A character array with the given units. -/
def characters (units : List UInt16) : Object :=
  primitiveArray .char (units.map fun u => (u.toNat : Int))

/-- The array type of a primitive array. -/
def primitiveArrayType (element : BaseType) : String :=
  "[" ++ String.singleton element.letter

/-- How messages name the type of an object. -/
def typeName : Object → String
  | primitiveArray .. => "*objgraph.PrimitiveArray"
  | objectArray .. => "*objgraph.ObjectArray"
  | ofClass .. => "*objgraph.Instance"
  | metadata _ => "*objgraph.Metadata"

/-- The number of values that an object holds. -/
def valueCount : Object → Nat
  | primitiveArray .. => 0
  | objectArray _ elements => elements.length
  | ofClass _ fields => fields.length
  | metadata _ => 4

end Object

/-- The objects of a program. -/
structure Heap where
  objects : Array Object := #[]
  deriving DecidableEq, Repr, Inhabited

namespace Heap

/-- The array type of every vtable. -/
def vtableType : String := "[Ljava/lang/Object;"

/-- Adds an object. -/
def allocate (h : Heap) (object : Object) : ObjectId × Heap :=
  (h.objects.size, ⟨h.objects.push object⟩)

/-- The object at a place. -/
def get? (h : Heap) (id : ObjectId) : Option Object :=
  h.objects[id]?

/-- Replaces the object at a place. -/
def set (h : Heap) (id : ObjectId) (object : Object) : Heap :=
  ⟨h.objects.setIfInBounds id object⟩

/-- The metadata at a place. -/
def metadata? (h : Heap) (id : ObjectId) : Option Metadata :=
  match h.get? id with
  | some (.metadata m) => some m
  | _ => none

/-- The vtable of the metadata at a place, as a value. -/
def vtable (h : Heap) (id : ObjectId) : Value :=
  match (h.metadata? id).bind (·.vtable) with
  | some vtable => .object vtable
  | none => .missingVtable

/-- Adds metadata, with an empty vtable unless it is of an interface. -/
def newMetadata (h : Heap) (m : Metadata) : ObjectId × Heap :=
  if m.kind = .interfaceType then h.allocate (.metadata m)
  else
    let (vtable, h) := h.allocate (.objectArray vtableType [])
    h.allocate (.metadata { m with vtable := some vtable })

/-- Sets the contents of the vtable of the metadata at a place. Interfaces have none. -/
def setVtable (h : Heap) (id : ObjectId) (entries : List Value) : Heap :=
  match (h.metadata? id).bind (·.vtable) with
  | some vtable => h.set vtable (.objectArray vtableType entries)
  | none => h

/-- Sets the contents of the vtable of the metadata at a place, which must have one. -/
def fillVtable (h : Heap) (id : ObjectId) (entries : List Value) : Except Failure Heap :=
  if ((h.metadata? id).bind (·.vtable)).isSome then .ok (h.setVtable id entries)
  else .error (Cause.absent "an interface has no vtable" : Failure)

/-- The contents of the vtable of the metadata at a place, `none` for interfaces. -/
def vtableEntries? (h : Heap) (id : ObjectId) : Option (List Value) :=
  match ((h.metadata? id).bind (·.vtable)).bind h.get? with
  | some (.objectArray _ elements) => some elements
  | _ => none

/-- How messages name the type of a value. -/
def typeName (h : Heap) : Value → String
  | .null => "<nil>"
  | .object id => ((h.get? id).map Object.typeName).getD "<nil>"
  | .missingVtable => "*objgraph.ObjectArray"
  | .symbol _ => "objgraph.LabelReference"
  | .text _ => "string"
  | .bool _ => "bool"
  | .int type _ => type.name

/-- The number of objects and of values that they hold. -/
def weight (h : Heap) : Nat :=
  (h.objects.toList.map fun o => o.valueCount + 1).foldr (· + ·) 0

end Heap

end JvmAot
