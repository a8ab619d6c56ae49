import JvmAot.ClassFile.Bytecode
import JvmAot.Proofs.ClassFile.Format

/-! # The encoding of instructions

How the class file format writes instructions as bytes. `Encodes pool position bytes i` says that `bytes` are one of the
encodings of `i` at `position`, and `Encoded pool position bytes is` that `bytes` are encodings of `is`, one behind the
other. Opcodes have their numbers in the format (`Opcode.numbered`); the table that decoding looks bytes up in plays no
part here. -/

namespace JvmAot

/-! ### Opcode numbers -/

namespace Opcode

/-- The opcodes in the order of their numbers. -/
def numbered : List Opcode :=
  -- from 0
  [nop, aconstNull] ++ List.ofFn iconst ++
  -- from 9
  [lconst 0, lconst 1, fconst 0, fconst 1, fconst 2, dconst 0, dconst 1, bipush, sipush, ldc, ldcW,
  -- from 20
   ldc2W, load .int, load .long, load .float, load .double, load .reference, loadShort .int 0, loadShort .int 1,
   loadShort .int 2, loadShort .int 3,
  -- from 30
   loadShort .long 0, loadShort .long 1, loadShort .long 2, loadShort .long 3, loadShort .float 0,
   loadShort .float 1, loadShort .float 2, loadShort .float 3, loadShort .double 0, loadShort .double 1,
  -- from 40
   loadShort .double 2, loadShort .double 3, loadShort .reference 0, loadShort .reference 1, loadShort .reference 2,
   loadShort .reference 3, arrayLoad .int, arrayLoad .long, arrayLoad .float, arrayLoad .double,
  -- from 50
   arrayLoad .reference, arrayLoad .byte, arrayLoad .char, arrayLoad .short, store .int, store .long, store .float,
   store .double, store .reference, storeShort .int 0,
  -- from 60
   storeShort .int 1, storeShort .int 2, storeShort .int 3, storeShort .long 0, storeShort .long 1,
   storeShort .long 2, storeShort .long 3, storeShort .float 0, storeShort .float 1, storeShort .float 2,
  -- from 70
   storeShort .float 3, storeShort .double 0, storeShort .double 1, storeShort .double 2, storeShort .double 3,
   storeShort .reference 0, storeShort .reference 1, storeShort .reference 2, storeShort .reference 3,
   arrayStore .int,
  -- from 80
   arrayStore .long, arrayStore .float, arrayStore .double, arrayStore .reference, arrayStore .byte,
   arrayStore .char, arrayStore .short, pop, pop2, dup,
  -- from 90
   dupX1, dupX2, dup2, dup2X1, dup2X2, swap, arithmetic .add .int, arithmetic .add .long, arithmetic .add .float,
   arithmetic .add .double,
  -- from 100
   arithmetic .sub .int, arithmetic .sub .long, arithmetic .sub .float, arithmetic .sub .double,
   arithmetic .mul .int, arithmetic .mul .long, arithmetic .mul .float, arithmetic .mul .double,
   arithmetic .div .int, arithmetic .div .long,
  -- from 110
   arithmetic .div .float, arithmetic .div .double, arithmetic .rem .int, arithmetic .rem .long,
   arithmetic .rem .float, arithmetic .rem .double, negate .int, negate .long, negate .float, negate .double,
  -- from 120
   bitwise .shl .int, bitwise .shl .long, bitwise .shr .int, bitwise .shr .long, bitwise .ushr .int,
   bitwise .ushr .long, bitwise .and .int, bitwise .and .long, bitwise .or .int, bitwise .or .long,
  -- from 130
   bitwise .xor .int, bitwise .xor .long, iinc, convert .int .long, convert .int .float, convert .int .double,
   convert .long .int, convert .long .float, convert .long .double, convert .float .int,
  -- from 140
   convert .float .long, convert .float .double, convert .double .int, convert .double .long, convert .double .float,
   narrow .byte, narrow .char, narrow .short, lcmp, floatCompare .float false,
  -- from 150
   floatCompare .float true, floatCompare .double false, floatCompare .double true, ifZero .eq, ifZero .ne,
   ifZero .lt, ifZero .ge, ifZero .gt, ifZero .le, ifInt .eq,
  -- from 160
   ifInt .ne, ifInt .lt, ifInt .ge, ifInt .gt, ifInt .le, ifSame, ifNotSame, goto, jsr, ret,
  -- from 170
   tableswitch, lookupswitch, returnValue .int, returnValue .long, returnValue .float, returnValue .double,
   returnValue .reference, returnVoid, getstatic, putstatic,
  -- from 180
   getfield, putfield, invokevirtual, invokespecial, invokestatic, invokeinterface, invokedynamic, new, newarray,
   anewarray,
  -- from 190
   arraylength, athrow, checkcast, instanceof, monitorenter, monitorexit, wide, multianewarray, ifnull, ifnonnull,
  -- from 200
   gotoW, jsrW]

/-- The opcodes without operands. -/
def isBare : Opcode → Bool
  | nop | aconstNull | iconst _ | lconst _ | fconst _ | dconst _ | arrayLoad _ | arrayStore _ | pop | pop2 | dup | dupX1
  | dupX2 | dup2 | dup2X1 | dup2X2 | swap | arithmetic _ _ | negate _ | bitwise _ _ | convert _ _ | narrow _ | lcmp
  | floatCompare _ _ | returnValue _ | returnVoid | arraylength | athrow | monitorenter | monitorexit => true
  | _ => false

/-- The opcodes whose only operand is a local. -/
def namesLocal : Opcode → Bool
  | load _ | store _ | ret => true
  | _ => false

/-- The opcodes whose only operand is a distance of two bytes. -/
def namesDistance : Opcode → Bool
  | ifZero _ | ifInt _ | ifSame | ifNotSame | goto | jsr | ifnull | ifnonnull => true
  | _ => false

/-- The opcodes whose only operand is a slot of the pool, in two bytes. -/
def namesSlot : Opcode → Bool
  | getstatic | putstatic | getfield | putfield | invokevirtual | invokespecial | invokestatic | new | anewarray
  | checkcast | instanceof => true
  | _ => false

end Opcode

/-! ### Operands -/

/-- A number of four bytes. -/
def longBytes (n : UInt32) : List UInt8 :=
  numberBytes 4 n.toNat

/-- The bytes `padding` behind the opcode at `position` fill up to a multiple of four. -/
def Pads (position : Nat) (padding : List UInt8) : Prop :=
  padding.length < 4 ∧ 4 ∣ position + 1 + padding.length

/-- What the bytes behind an opcode at `position` say. Immediates, increments and distances are signed, distances count
from `position`, and an opcode that stands for another one is replaced by it. -/
inductive Operands (pool : Pool) (position : Nat) : Opcode → List UInt8 → Instruction → Prop
  | bare {op : Opcode} (h : op.isBare) : Operands pool position op [] { offset := position, opcode := op }
  | loadShort (kind : ValueKind) (index : Fin 4) :
    Operands pool position (.loadShort kind index) []
      { offset := position, opcode := .load kind, operand := index.val }
  | storeShort (kind : ValueKind) (index : Fin 4) :
    Operands pool position (.storeShort kind index) []
      { offset := position, opcode := .store kind, operand := index.val }
  | byteLocal {op : Opcode} (h : op.namesLocal) (index : UInt8) :
    Operands pool position op [index] { offset := position, opcode := op, operand := index.toNat }
  | wideLocal {op : Opcode} (h : op.namesLocal) {byte : UInt8} (hbyte : Opcode.numbered[byte.toNat]? = some op)
    (index : UInt16) :
    Operands pool position .wide (byte :: wordBytes index)
      { offset := position, opcode := op, operand := index.toNat }
  | bipush (value : UInt8) :
    Operands pool position .bipush [value] { offset := position, opcode := .bipush, operand := value.toInt8.toInt }
  | sipush (value : UInt16) :
    Operands pool position .sipush (wordBytes value)
      { offset := position, opcode := .sipush, operand := value.toInt16.toInt }
  | newarray (element : UInt8) :
    Operands pool position .newarray [element] { offset := position, opcode := .newarray, operand := element.toNat }
  | iinc (index increment : UInt8) :
    Operands pool position .iinc [index, increment]
      { offset := position, opcode := .iinc, operand := index.toNat, increment := increment.toInt8.toInt }
  | wideIinc {byte : UInt8} (hbyte : Opcode.numbered[byte.toNat]? = some .iinc) (index increment : UInt16) :
    Operands pool position .wide (byte :: (wordBytes index ++ wordBytes increment))
      { offset := position, opcode := .iinc, operand := index.toNat, increment := increment.toInt16.toInt }
  | ldc {slot : UInt8} {c : Constant} (hc : pool.constant slot.toNat = .ok c) :
    Operands pool position .ldc [slot] { offset := position, opcode := .ldc, constant := some c }
  | ldcW {slot : UInt16} {c : Constant} (hc : pool.constant slot.toNat = .ok c) :
    Operands pool position .ldcW (wordBytes slot) { offset := position, opcode := .ldc, constant := some c }
  | ldc2W {slot : UInt16} {c : Constant} (hc : pool.constant slot.toNat = .ok c) :
    Operands pool position .ldc2W (wordBytes slot) { offset := position, opcode := .ldc, constant := some c }
  | slot {op : Opcode} (h : op.namesSlot) {slot : UInt16} {c : Constant} (hc : pool.constant slot.toNat = .ok c) :
    Operands pool position op (wordBytes slot) { offset := position, opcode := op, constant := some c }
  /-- The last two bytes are there for other readers. -/
  | dynamic {op : Opcode} (h : op = .invokeinterface ∨ op = .invokedynamic) {slot : UInt16} {c : Constant}
    (hc : pool.constant slot.toNat = .ok c) (ignored : UInt16) :
    Operands pool position op (wordBytes slot ++ wordBytes ignored)
      { offset := position, opcode := op, constant := some c }
  | multianewarray {slot : UInt16} {c : Constant} (hc : pool.constant slot.toNat = .ok c) (dimensions : UInt8) :
    Operands pool position .multianewarray (wordBytes slot ++ [dimensions])
      { offset := position, opcode := .multianewarray, operand := dimensions.toNat, constant := some c }
  | branch {op : Opcode} (h : op.namesDistance) (distance : UInt16) :
    Operands pool position op (wordBytes distance)
      { offset := position, opcode := op, target := position + distance.toInt16.toInt }
  | gotoW (distance : UInt32) :
    Operands pool position .gotoW (longBytes distance)
      { offset := position, opcode := .goto, target := position + distance.toInt32.toInt }
  | jsrW (distance : UInt32) :
    Operands pool position .jsrW (longBytes distance)
      { offset := position, opcode := .jsr, target := position + distance.toInt32.toInt }
  | tableswitch {padding : List UInt8} (hpadding : Pads position padding) (otherwise low high : UInt32)
    {distances : List UInt32} (hcount : distances.length = (high.toInt32.toInt - low.toInt32.toInt + 1).toNat) :
    Operands pool position .tableswitch
      (padding ++ (longBytes otherwise ++ (longBytes low ++ (longBytes high ++ distances.flatMap longBytes))))
      { offset := position, opcode := .tableswitch, target := position + otherwise.toInt32.toInt
        switchTargets := distances.map fun distance => position + distance.toInt32.toInt }
  | lookupswitch {padding : List UInt8} (hpadding : Pads position padding) (otherwise count : UInt32)
    {cases : List (UInt32 × UInt32)} (hcount : cases.length = count.toInt32.toInt.toNat) :
    Operands pool position .lookupswitch
      (padding ++ (longBytes otherwise ++ (longBytes count ++ cases.flatMap fun c => longBytes c.1 ++ longBytes c.2)))
      { offset := position, opcode := .lookupswitch, target := position + otherwise.toInt32.toInt
        switchTargets := cases.map fun c => position + c.2.toInt32.toInt }

/-! ### Instructions -/

/-- The format writes the instruction `i` at `position` as `bytes`: the number of an opcode, then its operands. -/
inductive Encodes (pool : Pool) (position : Nat) : List UInt8 → Instruction → Prop
  | intro {op : Opcode} {byte : UInt8} {operands : List UInt8} {i : Instruction}
    (hbyte : Opcode.numbered[byte.toNat]? = some op) (hi : Operands pool position op operands i) : Encodes pool position (byte :: operands) i

/-- The format writes the instructions `is` from `position` on as `bytes`: each begins where the one before it ends, and
the last one ends with the bytes. -/
inductive Encoded (pool : Pool) : Nat → List UInt8 → List Instruction → Prop
  | nil {position : Nat} : Encoded pool position [] []
  | cons {position : Nat} {bytes rest : List UInt8} {i : Instruction} {is : List Instruction}
    (hi : Encodes pool position bytes i) (hrest : Encoded pool (position + bytes.length) rest is) :
    Encoded pool position (bytes ++ rest) (i :: is)

end JvmAot
