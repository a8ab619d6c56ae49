import JvmAot.ClassFile.Decode
import JvmAot.Proofs.Text.Units
import Mathlib.Data.List.Forall2

/-! # The class file format

The parts of a class file as they are written. They refer to each other by index, and their sizes fit the numbers that
announce them. `ClassImage.bytes` are the bytes of a file, and `ClassImage.Writes` says which class they declare: any
number of files declare the same class, as the entries of the pool may be in any order and attributes other than method
bodies say nothing. -/

namespace JvmAot

/-- How many numbers have `count` bytes. -/
def capacity : (count : Nat) → Nat
  | 0 => 1
  | count + 1 => 256 * capacity count

/-- A number as `count` bytes, most significant first. -/
def numberBytes : (count n : Nat) → List UInt8
  | 0, _ => []
  | count + 1, n => numberBytes count (n / 256) ++ [UInt8.ofNat n]

def wordBytes (n : UInt16) : List UInt8 :=
  numberBytes 2 n.toNat

/-- A list whose length is written in two bytes. -/
structure Counted (α : Type) where
  items : List α
  fits : items.length < capacity 2

def Counted.bytes {α : Type} (list : Counted α) (write : α → List UInt8) : List UInt8 :=
  numberBytes 2 list.items.length ++ list.items.flatMap write

/-! ### The pool -/

/-- An entry of the pool, by the seventeen tags. -/
inductive PoolItem where
  | utf8 (units : List UInt16) (fits : (ModifiedUtf8.encode units).length < capacity 2)
  | integer (value : Int32)
  | float (bits : UInt32)
  | long (value : Int64)
  | double (bits : UInt64)
  | classRef (name : UInt16)
  | string (text : UInt16)
  | field (owner nameAndType : UInt16)
  | method (owner nameAndType : UInt16)
  | interfaceMethod (owner nameAndType : UInt16)
  | nameAndType (name descriptor : UInt16)
  | methodHandle (kind : UInt8) (reference : UInt16)
  | methodType (descriptor : UInt16)
  | dynamic (bootstrap nameAndType : UInt16)
  | invokeDynamic (bootstrap nameAndType : UInt16)
  | moduleRef (name : UInt16)
  | packageRef (name : UInt16)

namespace PoolItem

def tag : PoolItem → Nat
  | utf8 .. => 1
  | integer _ => 3
  | float _ => 4
  | long _ => 5
  | double _ => 6
  | classRef _ => 7
  | string _ => 8
  | field .. => 9
  | method .. => 10
  | interfaceMethod .. => 11
  | nameAndType .. => 12
  | methodHandle .. => 15
  | methodType _ => 16
  | dynamic .. => 17
  | invokeDynamic .. => 18
  | moduleRef _ => 19
  | packageRef _ => 20

/-- The numbers of an entry that is not a text, each with its size. -/
def row : PoolItem → List (Nat × Nat)
  | utf8 .. => []
  | integer value => [(4, value.toUInt32.toNat)]
  | float bits => [(4, bits.toNat)]
  | long value => [(8, value.toUInt64.toNat)]
  | double bits => [(8, bits.toNat)]
  | classRef n | string n | methodType n | moduleRef n | packageRef n => [(2, n.toNat)]
  | field m n | method m n | interfaceMethod m n | nameAndType m n | dynamic m n | invokeDynamic m n =>
    [(2, m.toNat), (2, n.toNat)]
  | methodHandle kind n => [(1, kind.toNat), (2, n.toNat)]

def content : PoolItem → List UInt8
  | utf8 units _ => numberBytes 2 (ModifiedUtf8.encode units).length ++ ModifiedUtf8.encode units
  | item => item.row.flatMap fun field => numberBytes field.1 field.2

def bytes (item : PoolItem) : List UInt8 :=
  UInt8.ofNat item.tag :: item.content

/-- The slots of an entry, the second one of a number of eight bytes empty. -/
def slots (item : PoolItem) : List (Option PoolItem) :=
  match item with
  | long _ | double _ => [some item, none]
  | _ => [some item]

def member? : PoolItem → Option (UInt16 × UInt16)
  | field owner pair | method owner pair | interfaceMethod owner pair => some (owner, pair)
  | _ => none

end PoolItem

/-- A pool with its entries in the order in which they are written. -/
structure PoolImage where
  items : List PoolItem
  fits : 1 + (items.flatMap PoolItem.slots).length < capacity 2

namespace PoolImage

/-- All slots, of which the first is empty. -/
def slots (pool : PoolImage) : List (Option PoolItem) :=
  none :: pool.items.flatMap PoolItem.slots

def bytes (pool : PoolImage) : List UInt8 :=
  numberBytes 2 (1 + (pool.items.flatMap PoolItem.slots).length) ++ pool.items.flatMap PoolItem.bytes

def item? (pool : PoolImage) (index : Nat) : Option PoolItem :=
  (pool.slots[index]?).join

def Text (pool : PoolImage) (index : Nat) (text : String) : Prop :=
  ∃ fits, pool.item? index = some (.utf8 (Utf16.encode text) fits)

def ClassName (pool : PoolImage) (index : Nat) (name : String) : Prop :=
  ∃ text, pool.item? index = some (.classRef text) ∧ pool.Text text.toNat name

/-- The slot names a member by its name and descriptor. -/
def NameAndType (pool : PoolImage) (index : Nat) (name descriptor : String) : Prop :=
  ∃ nameIndex descriptorIndex, pool.item? index = some (.nameAndType nameIndex descriptorIndex) ∧
    pool.Text nameIndex.toNat name ∧ pool.Text descriptorIndex.toNat descriptor

/-- The slot spells a constant. -/
inductive Spells (pool : PoolImage) (index : Nat) : ConstantValue → Prop
  | integer {value : Int32} (h : pool.item? index = some (.integer value)) : Spells pool index (.integer value.toInt)
  | float {bits : UInt32} (h : pool.item? index = some (.float bits)) : Spells pool index (.float bits)
  | long {value : Int64} (h : pool.item? index = some (.long value)) : Spells pool index (.long value.toInt)
  | double {bits : UInt64} (h : pool.item? index = some (.double bits)) : Spells pool index (.double bits)
  | string {text : UInt16} {units : List UInt16} {fits} (h : pool.item? index = some (.string text))
    (htext : pool.item? text.toNat = some (.utf8 units fits)) : Spells pool index (.string units)
  | classRef {name : String} (h : pool.ClassName index name) : Spells pool index (.classRef name)
  | member {item : PoolItem} {ownerIndex pairIndex : UInt16} {owner name descriptor : String}
    (h : pool.item? index = some item) (hitem : item.member? = some (ownerIndex, pairIndex))
    (howner : pool.ClassName ownerIndex.toNat owner) (hpair : pool.NameAndType pairIndex.toNat name descriptor) :
    Spells pool index (.member item.tag owner name descriptor)
  | uninterpreted {item : PoolItem} (h : pool.item? index = some item) (htag : item.tag ∈ [15, 16, 17, 18]) :
    Spells pool index (.uninterpreted item.tag)

/-- All texts are sequences of characters. -/
def IsUnicode (pool : PoolImage) : Prop :=
  ∀ index units fits, pool.item? index = some (.utf8 units fits) → ∃ text, units = Utf16.encode text

end PoolImage

/-- The table that a pool is read as. -/
def PoolItem.entry : PoolItem → PoolEntry
  | utf8 units _ => .utf8 units
  | integer value => .integer value.toUInt32
  | float bits => .float bits
  | long value => .long value.toUInt64
  | double bits => .double bits
  | classRef name => .classRef name.toNat
  | string text => .string text.toNat
  | field owner pair => .member 9 owner.toNat pair.toNat
  | method owner pair => .member 10 owner.toNat pair.toNat
  | interfaceMethod owner pair => .member 11 owner.toNat pair.toNat
  | nameAndType name descriptor => .nameAndType name.toNat descriptor.toNat
  | item => .uninterpreted item.tag

def PoolEntry.ofSlot (slot : Option PoolItem) : PoolEntry :=
  slot.elim .unusable PoolItem.entry

def PoolImage.table (pool : PoolImage) : Pool :=
  ⟨(pool.slots.map PoolEntry.ofSlot).toArray⟩

/-! ### Attributes and method bodies -/

structure AttributeImage where
  name : UInt16
  content : List UInt8
  fits : content.length < capacity 4

def AttributeImage.bytes (a : AttributeImage) : List UInt8 :=
  wordBytes a.name ++ (numberBytes 4 a.content.length ++ a.content)

structure HandlerImage where
  start : UInt16
  stop : UInt16
  handler : UInt16
  catchIndex : UInt16

namespace HandlerImage

def bytes (h : HandlerImage) : List UInt8 :=
  wordBytes h.start ++ (wordBytes h.stop ++ (wordBytes h.handler ++ wordBytes h.catchIndex))

/-- The class of exceptions. Index 0 stands for all of them. -/
def Catches (pool : PoolImage) (index : Nat) : Option String → Prop
  | none => index = 0
  | some name => pool.ClassName index name

structure Writes (pool : PoolImage) (h : HandlerImage) (handler : ExceptionHandler) : Prop where
  start : handler.start = h.start.toNat
  stop : handler.stop = h.stop.toNat
  target : handler.handler = h.handler.toNat
  catchType : Catches pool h.catchIndex.toNat handler.catchType

end HandlerImage

structure BodyImage where
  maxStack : UInt16
  maxLocals : UInt16
  bytecode : List UInt8
  fits : bytecode.length < capacity 4
  handlers : Counted HandlerImage
  attributes : Counted AttributeImage

namespace BodyImage

def bytes (b : BodyImage) : List UInt8 :=
  wordBytes b.maxStack ++ (wordBytes b.maxLocals ++ (numberBytes 4 b.bytecode.length ++ (b.bytecode ++
    (b.handlers.bytes HandlerImage.bytes ++ b.attributes.bytes AttributeImage.bytes))))

/-- The instructions are those that the bytecode encodes. -/
structure Writes (pool : PoolImage) (b : BodyImage) (code : Code) : Prop where
  maxStack : code.maxStack = b.maxStack.toNat
  maxLocals : code.maxLocals = b.maxLocals.toNat
  instructions : Bytecode.decode pool.table b.bytecode = .ok code.instructions
  handlers : List.Forall₂ (HandlerImage.Writes pool) b.handlers.items code.handlers

end BodyImage

/-! ### Members -/

structure MemberImage where
  flags : UInt16
  name : UInt16
  descriptor : UInt16
  attributes : Counted AttributeImage

namespace MemberImage

def bytes (m : MemberImage) : List UInt8 :=
  wordBytes m.flags ++ (wordBytes m.name ++ (wordBytes m.descriptor ++ m.attributes.bytes AttributeImage.bytes))

structure WritesField (pool : PoolImage) (m : MemberImage) (field : FieldDecl) : Prop where
  flags : field.flags.bits = m.flags.toNat
  name : pool.Text m.name.toNat field.name
  descriptor : pool.Text m.descriptor.toNat field.descriptor

/-- An attribute of a method that is not its body. -/
def IsExtra (pool : PoolImage) (a : AttributeImage) : Prop :=
  ∃ units fits, pool.item? a.name.toNat = some (.utf8 units fits) ∧ units ≠ Utf16.encode "Code"

/-- The attributes of a method, one of which is its body if it has one. -/
inductive WritesCode (pool : PoolImage) : List AttributeImage → Option Code → Prop
  | bodiless {attributes : List AttributeImage} (h : ∀ a ∈ attributes, IsExtra pool a) : WritesCode pool attributes none
  | body {before after : List AttributeImage} {a : AttributeImage} {body : BodyImage} {code : Code}
    (hbefore : ∀ a ∈ before, IsExtra pool a) (hname : pool.Text a.name.toNat "Code") (hcontent : a.content = body.bytes)
    (hbody : body.Writes pool code) (hafter : ∀ a ∈ after, IsExtra pool a) :
    WritesCode pool (before ++ a :: after) (some code)

structure WritesMethod (pool : PoolImage) (m : MemberImage) (method : MethodDecl) : Prop where
  flags : method.flags.bits = m.flags.toNat
  name : pool.Text m.name.toNat method.name
  descriptor : pool.Text m.descriptor.toNat method.descriptor
  code : WritesCode pool m.attributes.items method.code

end MemberImage

/-! ### Files -/

structure ClassImage where
  minor : UInt16
  major : UInt16
  pool : PoolImage
  flags : UInt16
  thisIndex : UInt16
  superIndex : UInt16
  interfaces : Counted UInt16
  fields : Counted MemberImage
  methods : Counted MemberImage
  attributes : Counted AttributeImage

namespace ClassImage

def headerBytes (image : ClassImage) : List UInt8 :=
  numberBytes 4 ClassFile.magic ++ (wordBytes image.minor ++ wordBytes image.major)

def declarationBytes (image : ClassImage) : List UInt8 :=
  wordBytes image.flags ++ (wordBytes image.thisIndex ++ (wordBytes image.superIndex ++
    (image.interfaces.bytes wordBytes ++ (image.fields.bytes MemberImage.bytes ++
      (image.methods.bytes MemberImage.bytes ++ image.attributes.bytes AttributeImage.bytes)))))

def bytes (image : ClassImage) : List UInt8 :=
  image.headerBytes ++ (image.pool.bytes ++ image.declarationBytes)

/-- The superclass. Index 0 and an empty name stand for none. -/
def Extends (pool : PoolImage) (index : Nat) : Option String → Prop
  | none => index = 0 ∨ pool.ClassName index ""
  | some name => name ≠ "" ∧ pool.ClassName index name

/-- The file declares the class. -/
structure Writes (image : ClassImage) (file : ClassFile) : Prop where
  minor : file.minor = image.minor.toNat
  major : file.major = image.major.toNat
  flags : file.flags.bits = image.flags.toNat
  name : image.pool.ClassName image.thisIndex.toNat file.name
  superName : Extends image.pool image.superIndex.toNat file.superName
  interfaces : List.Forall₂ (fun index name => image.pool.ClassName index.toNat name) image.interfaces.items file.interfaces
  fields : List.Forall₂ (MemberImage.WritesField image.pool) image.fields.items file.fields
  methods : List.Forall₂ (MemberImage.WritesMethod image.pool) image.methods.items file.methods

end ClassImage

end JvmAot
