/-! # Opcodes

The instructions of the virtual machine by families: what they do, and the kind of value they do it
to. `Opcode.table` lists them in the order of their bytes, which fixes `Opcode.ofByte`. -/

namespace JvmAot

/-- The kinds of values in locals and on the operand stack. -/
inductive ValueKind where
  | int | long | float | double | reference
  deriving DecidableEq, Repr, Inhabited

namespace ValueKind

/-- The letter of a kind in mnemonics. -/
def letter : ValueKind → String
  | int => "i"
  | long => "l"
  | float => "f"
  | double => "d"
  | reference => "a"

/-- Whether values take two words. -/
def isWide : ValueKind → Bool
  | long | double => true
  | int | float | reference => false

/-- The kinds in the order of opcodes. -/
def all : List ValueKind := [int, long, float, double, reference]

/-- The kinds that arithmetic is done with. -/
def numeric : List ValueKind := [int, long, float, double]

/-- The kinds that have bits to shift and combine. -/
def integral : List ValueKind := [int, long]

end ValueKind

/-- The kinds of array elements. Boolean arrays share the instructions of byte arrays. -/
inductive ElementKind where
  | int | long | float | double | reference | byte | char | short
  deriving DecidableEq, Repr, Inhabited

namespace ElementKind

/-- The letter of a kind in mnemonics. -/
def letter : ElementKind → String
  | int => "i"
  | long => "l"
  | float => "f"
  | double => "d"
  | reference => "a"
  | byte => "b"
  | char => "c"
  | short => "s"

/-- The kinds in the order of opcodes. -/
def all : List ElementKind := [int, long, float, double, reference, byte, char, short]

end ElementKind

/-- Arithmetic of two operands. -/
inductive Arithmetic where
  | add | sub | mul | div | rem
  deriving DecidableEq, Repr, Inhabited

namespace Arithmetic

/-- The operation in mnemonics. -/
def name : Arithmetic → String
  | add => "add"
  | sub => "sub"
  | mul => "mul"
  | div => "div"
  | rem => "rem"

end Arithmetic

/-- Operations on the bits of a value. -/
inductive Bitwise where
  | shl | shr | ushr | and | or | xor
  deriving DecidableEq, Repr, Inhabited

namespace Bitwise

/-- The operation in mnemonics. -/
def name : Bitwise → String
  | shl => "shl"
  | shr => "shr"
  | ushr => "ushr"
  | and => "and"
  | or => "or"
  | xor => "xor"

end Bitwise

/-- What integers are cut down to. -/
inductive Narrow where
  | byte | char | short
  deriving DecidableEq, Repr, Inhabited

/-- Comparisons of two words, or of one word with zero. -/
inductive Comparison where
  | eq | ne | lt | ge | gt | le
  deriving DecidableEq, Repr, Inhabited

namespace Comparison

/-- The comparison in mnemonics. -/
def name : Comparison → String
  | eq => "eq"
  | ne => "ne"
  | lt => "lt"
  | ge => "ge"
  | gt => "gt"
  | le => "le"

/-- The comparisons in the order of opcodes. -/
def all : List Comparison := [eq, ne, lt, ge, gt, le]

end Comparison

/-- An instruction of the virtual machine, without its operands. -/
inductive Opcode where
  | nop
  | aconstNull
  /-- Pushes the integer `index - 1`. -/
  | iconst (index : Fin 7)
  | lconst (value : Fin 2)
  | fconst (value : Fin 3)
  | dconst (value : Fin 2)
  | bipush
  | sipush
  | ldc
  | ldcW
  | ldc2W
  /-- Pushes a local. -/
  | load (kind : ValueKind)
  /-- Pushes one of the first four locals. -/
  | loadShort (kind : ValueKind) (index : Fin 4)
  | arrayLoad (kind : ElementKind)
  /-- Pops into a local. -/
  | store (kind : ValueKind)
  /-- Pops into one of the first four locals. -/
  | storeShort (kind : ValueKind) (index : Fin 4)
  | arrayStore (kind : ElementKind)
  | pop
  | pop2
  | dup
  | dupX1
  | dupX2
  | dup2
  | dup2X1
  | dup2X2
  | swap
  | arithmetic (op : Arithmetic) (kind : ValueKind)
  | negate (kind : ValueKind)
  | bitwise (op : Bitwise) (kind : ValueKind)
  | iinc
  /-- Converts a number to another kind. -/
  | convert (source target : ValueKind)
  /-- Cuts an integer down. -/
  | narrow (target : Narrow)
  | lcmp
  /-- Compares floating-point numbers; an unordered pair counts as greater if `greater` is set. -/
  | floatCompare (kind : ValueKind) (greater : Bool)
  /-- Branches on a comparison with zero. -/
  | ifZero (c : Comparison)
  /-- Branches on a comparison of two integers. -/
  | ifInt (c : Comparison)
  | ifSame
  | ifNotSame
  | goto
  | jsr
  | ret
  | tableswitch
  | lookupswitch
  /-- Returns a value. -/
  | returnValue (kind : ValueKind)
  | returnVoid
  | getstatic
  | putstatic
  | getfield
  | putfield
  | invokevirtual
  | invokespecial
  | invokestatic
  | invokeinterface
  | invokedynamic
  | new
  | newarray
  | anewarray
  | arraylength
  | athrow
  | checkcast
  | instanceof
  | monitorenter
  | monitorexit
  | wide
  | multianewarray
  | ifnull
  | ifnonnull
  | gotoW
  | jsrW
  /-- A byte that is no opcode. -/
  | reserved (byte : UInt8)
  deriving DecidableEq, Repr, Inhabited

namespace Opcode

/-- All opcodes in the order of their bytes. -/
def table : Array Opcode := List.toArray <|
  [nop, aconstNull] ++ (List.finRange 7).map iconst ++ (List.finRange 2).map lconst ++
  (List.finRange 3).map fconst ++ (List.finRange 2).map dconst ++ [bipush, sipush, ldc, ldcW, ldc2W] ++
  ValueKind.all.map load ++ ValueKind.all.flatMap (fun k => (List.finRange 4).map (loadShort k)) ++
  ElementKind.all.map arrayLoad ++
  ValueKind.all.map store ++ ValueKind.all.flatMap (fun k => (List.finRange 4).map (storeShort k)) ++
  ElementKind.all.map arrayStore ++
  [pop, pop2, dup, dupX1, dupX2, dup2, dup2X1, dup2X2, swap] ++
  [Arithmetic.add, .sub, .mul, .div, .rem].flatMap (fun op => ValueKind.numeric.map (arithmetic op)) ++
  ValueKind.numeric.map negate ++
  [Bitwise.shl, .shr, .ushr, .and, .or, .xor].flatMap
    (fun op => ValueKind.integral.map (bitwise op)) ++
  [iinc] ++
  ValueKind.numeric.flatMap (fun source =>
    (ValueKind.numeric.filter (· != source)).map (convert source)) ++
  [narrow .byte, narrow .char, narrow .short] ++
  [lcmp, floatCompare .float false, floatCompare .float true, floatCompare .double false,
    floatCompare .double true] ++
  Comparison.all.map ifZero ++ Comparison.all.map ifInt ++ [ifSame, ifNotSame] ++
  [goto, jsr, ret, tableswitch, lookupswitch] ++
  ValueKind.all.map returnValue ++ [returnVoid] ++
  [getstatic, putstatic, getfield, putfield, invokevirtual, invokespecial, invokestatic,
    invokeinterface, invokedynamic, new, newarray, anewarray, arraylength, athrow, checkcast,
    instanceof, monitorenter, monitorexit, wide, multianewarray, ifnull, ifnonnull, gotoW, jsrW]

/-- The opcode of a byte. -/
def ofByte (byte : UInt8) : Opcode :=
  (table[byte.toNat]?).getD (reserved byte)

/-- The conventional name of an opcode. -/
def mnemonic : Opcode → String
  | nop => "nop"
  | aconstNull => "aconst_null"
  | iconst 0 => "iconst_m1"
  | iconst index => "iconst_" ++ toString (index.val - 1)
  | lconst value => "lconst_" ++ toString value.val
  | fconst value => "fconst_" ++ toString value.val
  | dconst value => "dconst_" ++ toString value.val
  | bipush => "bipush"
  | sipush => "sipush"
  | ldc => "ldc"
  | ldcW => "ldc_w"
  | ldc2W => "ldc2_w"
  | load kind => kind.letter ++ "load"
  | loadShort kind index => kind.letter ++ "load_" ++ toString index.val
  | arrayLoad kind => kind.letter ++ "aload"
  | store kind => kind.letter ++ "store"
  | storeShort kind index => kind.letter ++ "store_" ++ toString index.val
  | arrayStore kind => kind.letter ++ "astore"
  | pop => "pop"
  | pop2 => "pop2"
  | dup => "dup"
  | dupX1 => "dup_x1"
  | dupX2 => "dup_x2"
  | dup2 => "dup2"
  | dup2X1 => "dup2_x1"
  | dup2X2 => "dup2_x2"
  | swap => "swap"
  | arithmetic op kind => kind.letter ++ op.name
  | negate kind => kind.letter ++ "neg"
  | bitwise op kind => kind.letter ++ op.name
  | iinc => "iinc"
  | convert source target => source.letter ++ "2" ++ target.letter
  | narrow .byte => "i2b"
  | narrow .char => "i2c"
  | narrow .short => "i2s"
  | lcmp => "lcmp"
  | floatCompare kind greater => kind.letter ++ if greater then "cmpg" else "cmpl"
  | ifZero c => "if" ++ c.name
  | ifInt c => "if_icmp" ++ c.name
  | ifSame => "if_acmpeq"
  | ifNotSame => "if_acmpne"
  | goto => "goto"
  | jsr => "jsr"
  | ret => "ret"
  | tableswitch => "tableswitch"
  | lookupswitch => "lookupswitch"
  | returnValue kind => kind.letter ++ "return"
  | returnVoid => "return"
  | getstatic => "getstatic"
  | putstatic => "putstatic"
  | getfield => "getfield"
  | putfield => "putfield"
  | invokevirtual => "invokevirtual"
  | invokespecial => "invokespecial"
  | invokestatic => "invokestatic"
  | invokeinterface => "invokeinterface"
  | invokedynamic => "invokedynamic"
  | new => "new"
  | newarray => "newarray"
  | anewarray => "anewarray"
  | arraylength => "arraylength"
  | athrow => "athrow"
  | checkcast => "checkcast"
  | instanceof => "instanceof"
  | monitorenter => "monitorenter"
  | monitorexit => "monitorexit"
  | wide => "wide"
  | multianewarray => "multianewarray"
  | ifnull => "ifnull"
  | ifnonnull => "ifnonnull"
  | gotoW => "goto_w"
  | jsrW => "jsr_w"
  | reserved _ => "unknown"

/-- Whether an instruction has jump targets. The long forms of jumps have none of their own: they are
decoded as the short forms. -/
def isBranch : Opcode → Bool
  | ifZero _ | ifInt _ | ifSame | ifNotSame | goto | jsr | tableswitch | lookupswitch | ifnull
  | ifnonnull => true
  | _ => false

end Opcode

end JvmAot
