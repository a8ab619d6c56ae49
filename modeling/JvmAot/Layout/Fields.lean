import JvmAot.Descriptor.FieldType

/-! # Storage of fields

Fields get their byte offsets one after the other. A field narrower than a word leaves a hole in its
word, which the next field that fits takes; words and doublewords always start at a fresh word.

A `FieldLayout` is what has been given out so far. A `FieldAllocator` hands out offsets until it is
sealed, and only a sealed layout can be continued by a subclass, so a layout never changes after a
subclass has built on it. -/

namespace JvmAot

/-- The words that fields occupy, with the holes left in them. -/
structure FieldLayout where
  /-- The number of words. -/
  words : Nat := 0
  /-- The offset of a free halfword. -/
  halfwordHole : Option Nat := none
  /-- The offset of a free byte. -/
  byteHole : Option Nat := none
  deriving DecidableEq, Repr, Inhabited

namespace FieldLayout

/-- The size in bytes. -/
def size (l : FieldLayout) : Nat :=
  4 * l.words

/-- Gives out a fresh word. -/
def allocateWord (l : FieldLayout) : Nat × FieldLayout :=
  (4 * l.words, { l with words := l.words + 1 })

/-- Gives out two fresh words. -/
def allocateDoubleword (l : FieldLayout) : Nat × FieldLayout :=
  (4 * l.words, { l with words := l.words + 2 })

/-- Gives out the free halfword, or the first half of a fresh word. -/
def allocateHalfword (l : FieldLayout) : Nat × FieldLayout :=
  match l.halfwordHole with
  | some offset => (offset, { l with halfwordHole := none })
  | none =>
    let (offset, l) := l.allocateWord
    (offset, { l with halfwordHole := some (offset + 2) })

/-- Gives out the free byte, or the first half of a halfword. -/
def allocateByte (l : FieldLayout) : Nat × FieldLayout :=
  match l.byteHole with
  | some offset => (offset, { l with byteHole := none })
  | none =>
    let (offset, l) := l.allocateHalfword
    (offset, { l with byteHole := some (offset + 1) })

/-- Gives out storage of a given size; every size but one, two and eight bytes is a word. -/
def allocateBytes (l : FieldLayout) : Nat → Nat × FieldLayout
  | 1 => l.allocateByte
  | 2 => l.allocateHalfword
  | 8 => l.allocateDoubleword
  | _ => l.allocateWord

/-- Gives out storage for a field of type `t`. -/
def allocate (l : FieldLayout) (t : FieldType) : Nat × FieldLayout :=
  l.allocateBytes t.bytes

end FieldLayout

/-- A layout in the making, until it is sealed. -/
structure FieldAllocator where
  layout : FieldLayout := {}
  isSealed : Bool := false
  deriving DecidableEq, Repr, Inhabited

namespace FieldAllocator

/-- An allocator that continues after the fields of a sealed parent. -/
def child (parent : Option FieldLayout) : Except Failure FieldAllocator :=
  match parent with
  | some layout => .ok { layout }
  | none => .error (Cause.fieldsNotSealed : Failure)

/-- Gives out storage by `allocation`, unless the allocator is sealed. -/
def take (allocation : FieldLayout → Nat × FieldLayout) (a : FieldAllocator) :
    Except Failure (Nat × FieldAllocator) :=
  if a.isSealed then .error (Cause.fieldsSealed : Failure)
  else
    let (offset, layout) := allocation a.layout
    .ok (offset, { a with layout })

/-- Gives out storage for a field of type `t`, unless the allocator is sealed. -/
def allocate (a : FieldAllocator) (t : FieldType) : Except Failure (Nat × FieldAllocator) :=
  a.take (·.allocate t)

/-- Ends allocation. -/
def finish (a : FieldAllocator) : Except Failure (FieldLayout × FieldAllocator) :=
  if a.isSealed then .error (Cause.fieldsSealed : Failure)
  else .ok (a.layout, { a with isSealed := true })

end FieldAllocator

end JvmAot
