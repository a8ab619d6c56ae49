import JvmAot.Asm.Instr
import JvmAot.Bytecode.Opcode
import JvmAot.Descriptor.FieldType

/-! # Loads and stores by type

Values of up to a word are moved by one load or store that fits their size. Values of two words have
no such instruction and are moved word by word. -/

namespace JvmAot

/-- The load for a value of the given size, extended to a word. -/
def loadOp? (bytes : Nat) (isSigned : Bool) : Option Mnemonic :=
  match bytes, isSigned with
  | 1, true => some .lb
  | 1, false => some .lbu
  | 2, true => some .lh
  | 2, false => some .lhu
  | 4, _ => some .lw
  | _, _ => none

/-- The store for a value of the given size. -/
def storeOp? (bytes : Nat) : Option Mnemonic :=
  match bytes with
  | 1 => some .sb
  | 2 => some .sh
  | 4 => some .sw
  | _ => none

namespace FieldType

/-- The load for a value of this type, `none` if it takes two words. -/
def loadOp? (t : FieldType) : Option Mnemonic :=
  JvmAot.loadOp? t.bytes t.isSigned

/-- The store for a value of this type, `none` if it takes two words. -/
def storeOp? (t : FieldType) : Option Mnemonic :=
  JvmAot.storeOp? t.bytes

/-- The load for a value of this type; asking for a type of two words is a broken contract. -/
def loadOp (t : FieldType) : Except Failure Mnemonic :=
  match t.loadOp? with
  | some op => .ok op
  | none => .error (Cause.noLoad t.toText : Failure)

/-- The store for a value of this type; asking for a type of two words is a broken contract. -/
def storeOp (t : FieldType) : Except Failure Mnemonic :=
  match t.storeOp? with
  | some op => .ok op
  | none => .error (Cause.noStore t.toText : Failure)

end FieldType

/-- The type of the elements that an array instruction accesses. -/
def ElementKind.baseType : ElementKind → BaseType
  | int => .int
  | long => .long
  | float => .float
  | double => .double
  | reference => .reference
  | byte => .byte
  | char => .char
  | short => .short

end JvmAot
