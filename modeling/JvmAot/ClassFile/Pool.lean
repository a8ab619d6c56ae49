import JvmAot.Bytecode.Constant
import JvmAot.ClassFile.Cursor
import JvmAot.ClassFile.ModifiedUtf8

/-! # The constant pool

The pool is a table of tagged entries that refer to each other by index. Index 0 and the slot after an
eight-byte entry hold nothing. Looking an entry up fails unless it has the tag that is expected. -/

namespace JvmAot

/-- An entry of the constant pool. -/
inductive PoolEntry where
  /-- A slot that holds nothing. -/
  | unusable
  | utf8 (units : List UInt16)
  | integer (bits : UInt32)
  | float (bits : UInt32)
  | long (bits : UInt64)
  | double (bits : UInt64)
  | classRef (name : Nat)
  | string (text : Nat)
  /-- A field, method or interface method, by the tags 9, 10 and 11. -/
  | member (tag : Nat) (owner nameAndType : Nat)
  | nameAndType (name descriptor : Nat)
  /-- An entry whose contents are not looked at. -/
  | uninterpreted (tag : Nat)
  deriving DecidableEq, Repr, Inhabited

namespace PoolEntry

/-- The tag of an entry, 0 for a slot that holds nothing. -/
def tag : PoolEntry → Nat
  | unusable => 0
  | utf8 _ => 1
  | integer _ => 3
  | float _ => 4
  | long _ => 5
  | double _ => 6
  | classRef _ => 7
  | string _ => 8
  | member tag .. => tag
  | nameAndType .. => 12
  | uninterpreted tag => tag

/-- Whether the slot after the entry holds nothing. -/
def takesTwoSlots : PoolEntry → Bool
  | long _ | double _ => true
  | _ => false

open Reading in
/-- Reads the entry of slot `slot`. An entry that is cut short is reported under the number of the
last slot it takes. -/
def decode (slot : Nat) : Decoder PoolEntry := do
  let place (slot : Nat) : String := "constant pool entry " ++ toString slot
  let tag ← u1
  let entry ← match tag with
    | 1 => do
      match ModifiedUtf8.decode (← take (← u2)) with
      | some units => pure (utf8 units)
      | none => Decoder.within (place slot) (Decoder.fail .invalidUtf8)
    | 3 => integer <$> UInt32.ofNat <$> u4
    | 4 => float <$> UInt32.ofNat <$> u4
    | 5 => long <$> UInt64.ofNat <$> u8
    | 6 => double <$> UInt64.ofNat <$> u8
    | 7 => classRef <$> u2
    | 8 => string <$> u2
    | 9 | 10 | 11 => do pure (member tag (← u2) (← u2))
    | 12 => do pure (nameAndType (← u2) (← u2))
    | 15 => do
      let _ ← take 1
      let _ ← take 2
      pure (uninterpreted tag)
    | 16 | 19 | 20 => do
      let _ ← take 2
      pure (uninterpreted tag)
    | 17 | 18 => do
      let _ ← take 2
      let _ ← take 2
      pure (uninterpreted tag)
    | _ => do
      if !(← isExhausted) then Decoder.fail (.invalidTag tag slot)
      pure unusable
  if ← isExhausted then
    let last := if entry.takesTwoSlots then slot + 1 else slot
    Decoder.within (place last) (Decoder.fail .unexpectedEnd)
  pure entry

end PoolEntry

/-- The entries of a pool by index. -/
structure Pool where
  entries : Array PoolEntry
  deriving DecidableEq, Repr, Inhabited

namespace Pool

/-- Reads `count` slots from slot `slot` on. The next slot holds nothing if `skip` is set. -/
def decodeSlots : (count slot : Nat) → (skip : Bool) → Array PoolEntry → Decoder (Array PoolEntry)
  | 0, _, _, entries => pure entries
  | count + 1, slot, true, entries => decodeSlots count (slot + 1) false (entries.push .unusable)
  | count + 1, slot, false, entries => do
    let entry ← PoolEntry.decode slot
    decodeSlots count (slot + 1) entry.takesTwoSlots (entries.push entry)

/-- Reads the number of slots and the slots from slot 1 on. -/
def decode : Decoder Pool := do
  let count ← Reading.u2
  return ⟨← decodeSlots (count - 1) 1 false #[.unusable]⟩

/-- The entry of an index other than 0. -/
def entry? (p : Pool) (index : Nat) : Option PoolEntry :=
  if index = 0 then none else p.entries[index]?

/-- The text entry of an index. -/
def utf8 (p : Pool) (index : Nat) : Except Failure (List UInt16) :=
  match p.entry? index with
  | some (.utf8 units) => .ok units
  | _ => .error (Cause.wrongEntry index 1 : Failure)

/-- The text of an index. -/
def text (p : Pool) (index : Nat) : Except Failure String :=
  (p.utf8 index).map Utf16.decode

/-- The class name of an index. -/
def className (p : Pool) (index : Nat) : Except Failure String :=
  match p.entry? index with
  | some (.classRef name) => p.text name
  | _ => .error (Cause.wrongEntry index 7 : Failure)

/-- The member name and descriptor of an index. -/
def nameAndType (p : Pool) (index : Nat) : Except Failure (String × String) :=
  match p.entry? index with
  | some (.nameAndType name descriptor) => do
    let name ← p.text name
    let descriptor ← p.text descriptor
    return (name, descriptor)
  | _ => .error (Cause.wrongEntry index 12 : Failure)

/-- The tags of entries that can be loaded without being looked into. -/
def uninterpretedTags : List Nat := [15, 16, 17, 18]

/-- What an entry stands for as the operand of an instruction. -/
def value (p : Pool) (index : Nat) (entry : PoolEntry) : Except Failure ConstantValue :=
  match entry with
  | .integer bits => .ok (.integer (Cursor.signed 32 bits.toNat))
  | .float bits => .ok (.float bits)
  | .long bits => .ok (.long (Cursor.signed 64 bits.toNat))
  | .double bits => .ok (.double bits)
  | .string text => .string <$> p.utf8 text
  | .classRef name => .classRef <$> p.text name
  | .member tag owner nameAndType => do
    let owner ← p.className owner
    let (name, descriptor) ← p.nameAndType nameAndType
    return .member tag owner name descriptor
  | entry =>
    if uninterpretedTags.contains entry.tag then .ok (.uninterpreted entry.tag)
    else .error (Cause.notLoadable index entry.tag : Failure)

/-- The constant of an index. -/
def constant (p : Pool) (index : Nat) : Except Failure Constant :=
  match p.entry? index with
  | none => .error (Cause.noEntry index : Failure)
  | some entry => (p.value index entry).map fun value => { slot := index, value }

end Pool

end JvmAot
