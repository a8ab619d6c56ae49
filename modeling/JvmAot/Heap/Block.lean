import JvmAot.Asm.Line
import JvmAot.Heap.Labels

/-! # Data of objects

The data of an object is a list of items: references that are written as labels, and numbers, gaps and
padding that do not depend on labels. `Heap.block` gives the items of an object; what comes before a
failure is part of it. -/

namespace JvmAot

/-- One line of data. -/
inductive DataItem where
  /-- Words that refer to objects. -/
  | references (values : List Value)
  /-- Numbers of `size` bytes each. -/
  | numbers (size : Nat) (values : List Int)
  /-- A number of zero bytes. -/
  | zeros (count : Int)
  /-- Zero bytes up to a multiple of `bytes`. -/
  | align (bytes : Nat)
  deriving DecidableEq, Repr, Inhabited

namespace DataItem

/-- The directive for numbers of a given size. -/
def directive : (size : Nat) → String
  | 1 => ".byte"
  | 2 => ".half"
  | _ => ".word"

/-- A number cut to a given size. Bytes and halfwords are written without a sign; eight bytes are
written as two words, low word first. -/
def number (size : Nat) (n : Int) : List Int :=
  match size with
  | 1 => [n % 0x100]
  | 2 => [n % 0x10000]
  | 8 => [n.bmod 0x100000000, (n / 0x100000000).bmod 0x100000000]
  | _ => [n.bmod 0x100000000]

/-- An item in assembly text. References get labels if they have none. -/
def line (item : DataItem) (labels : LabelTable) : Line × LabelTable :=
  match item with
  | references values =>
    let (items, labels) := labels.getAll values
    (.directive ".word" items, labels)
  | numbers size values =>
    (.directive (directive size) ((values.flatMap (number size)).map toString), labels)
  | zeros count => (.directive ".zero" [toString count], labels)
  | align bytes => (.directive ".balign" [toString bytes], labels)

/-- Items in assembly text. -/
def lines (labels : LabelTable) : List DataItem → List Line × LabelTable
  | [] => ([], labels)
  | item :: rest =>
    let (line, labels) := item.line labels
    let (lines, labels) := DataItem.lines labels rest
    (line :: lines, labels)

end DataItem

/-- The data of an object, up to a failure if there is one. -/
structure Block where
  items : List DataItem
  failure : Option Failure := none
  deriving DecidableEq, Repr, Inhabited

namespace Block

/-- A failure before any data. -/
def fail (failure : Failure) : Block :=
  { items := [], failure := some failure }

/-- Puts items in front. -/
def prepend (items : List DataItem) (b : Block) : Block :=
  { b with items := items ++ b.items }

end Block

/-- A field of an object layout. -/
structure FieldSlot where
  name : String
  offset : Int
  type : FieldType
  deriving DecidableEq, Repr, Inhabited

/-- How instances of a class are laid out. -/
structure ObjectLayout where
  /-- The metadata of the class. -/
  metadata : ObjectId
  /-- The size in bytes. -/
  size : Int
  /-- All instance fields, inherited ones included. Of several fields of one name, the first one is the
  one that values are set for. -/
  fields : List FieldSlot
  deriving DecidableEq, Repr, Inhabited

/-- What the data of objects depends on. -/
structure ObjectResolver where
  /-- The metadata of an array type. -/
  arrayMetadata : String → Except Failure ObjectId
  /-- The layout of a class. -/
  classLayout : String → Except Failure ObjectLayout
  /-- A new string object with the given text. -/
  newString : String → Heap → Except Failure (ObjectId × Heap)

namespace ObjectLayout

/-- The size of the vtable pointer at the start of every object. -/
def headerSize : Int := 4

/-- The fields of a list without those that an earlier one of the same name hides. -/
def visible (seen : List String) : List FieldSlot → List FieldSlot
  | [] => []
  | f :: rest =>
    if seen.contains f.name then visible seen rest else f :: visible (f.name :: seen) rest

/-- The fields that values are set for. -/
def named (l : ObjectLayout) : List FieldSlot :=
  visible [] l.fields

/-- The value at an offset. Of several named fields at one offset the last one counts. -/
def valueAt (l : ObjectLayout) (values : List (String × Value)) (offset : Int) : Value :=
  match l.named.reverse.find? (·.offset = offset) with
  | some f => (values.lookup f.name).getD .null
  | none => .null

/-- Why the values cannot be written: one is for a field in the first word, which holds the vtable
pointer, or for no field at all. -/
def refusal? (l : ObjectLayout) (className : String) (values : List (String × Value)) : Option Cause :=
  match l.named.find? fun f => f.offset < headerSize && (values.lookup f.name).isSome with
  | some f => some (.overlapsVtable className f.name)
  | none =>
    match values.find? fun v => !l.fields.any (·.name == v.1) with
    | some (name, _) => some (.noSuchField className name)
    | none => none

/-- The fields behind the vtable pointer in the order of their offsets. -/
def ordered (l : ObjectLayout) : List FieldSlot :=
  (l.fields.filter (headerSize ≤ ·.offset)).mergeSort (·.offset ≤ ·.offset)

end ObjectLayout

/-- The number that a value gives a primitive field, if it gives one. -/
def Value.number? : Value → Option Int
  | .null => some 0
  | .bool value => some (if value then 1 else 0)
  | .int type value => if type.isFieldValue then some value else none
  | _ => none

namespace Heap

/-- The zeros from one offset to another one, if that comes later. -/
def gap (position target : Int) : List DataItem :=
  if position < target then [.zeros (IntType.int.wrap (target - position))] else []

/-- The data of some fields and of the rest of the object, from the offset `position` on. Offsets are
64-bit numbers. -/
def fieldData (h : Heap) (l : ObjectLayout) (className : String) (values : List (String × Value))
    (position : Int) : List FieldSlot → Block
  | [] => { items := gap position l.size }
  | f :: rest =>
    let gap := gap position f.offset
    let value := l.valueAt values f.offset
    let after := fieldData h l className values (IntType.int.wrap (f.offset + f.type.bytes)) rest
    if f.type.isReference then after.prepend (gap ++ [.references [value]])
    else match value.number? with
      | some n => after.prepend (gap ++ [.numbers f.type.bytes [n]])
      | none =>
        { items := gap
          failure := some (Cause.notPrimitive className f.name (h.typeName value) : Failure) }

/-- A reference to an object that may be missing. -/
def reference (id : Option ObjectId) : DataItem :=
  .references [(id.map Value.object).getD .null]

/-- The data of metadata: superclass, kind, name, vtable and element type. -/
def metadataData (m : Metadata) : List DataItem :=
  [reference m.parent, .numbers 4 [m.kind.number], reference m.nameString, reference m.vtable,
    reference m.element]

/-- The data of an object. -/
def block (h : Heap) (r : ObjectResolver) : Object → Block
  | .primitiveArray element values =>
    match r.arrayMetadata (Object.primitiveArrayType element) with
    | .error failure => .fail failure
    | .ok metadata =>
      { items := [.references [h.vtable metadata], .numbers 4 [values.length]] ++
          (if values = [] then [] else [.numbers element.bytes values]) ++ [.align 4] }
  | .objectArray type elements =>
    match r.arrayMetadata type with
    | .error failure => .fail failure
    | .ok metadata =>
      { items := [.references [h.vtable metadata], .numbers 4 [elements.length]] ++
          if elements = [] then [] else [.references elements] }
  | .ofClass className values =>
    match r.classLayout className with
    | .error failure => .fail failure
    | .ok l =>
      match l.refusal? className values with
      | some cause => .fail cause
      | none =>
        (h.fieldData l className values ObjectLayout.headerSize l.ordered).prepend
          [.references [h.vtable l.metadata]]
  | .metadata m => { items := metadataData m }

end Heap

end JvmAot
