import JvmAot.Lowering.Access

/-! # Code templates

Generated code keeps the operand stack in memory, one word per slot, with the top at `sp`; it grows
downwards. Locals are words from the frame base upwards. A value of two words is pushed high word first,
so its low word is on top, and its high word has the lower numbered local. In objects, arrays and the
static pool the low word comes first.

Each template is the list of instructions for one operation. -/

namespace JvmAot.Template

open Instr

/-- Moves the top of the stack by a number of bytes; positive numbers pop. -/
def adjust (bytes : Int) : List Instr :=
  [opImm .addi .sp .sp bytes]

/-- Pushes a register. -/
def push (r : Register) : List Instr :=
  adjust (-4) ++ [store .sw r 0 .sp]

/-- Pops into a register. -/
def pop (r : Register) : List Instr :=
  load .lw r 0 .sp :: adjust 4

/-- Pushes the low 32 bits of a constant. -/
def pushInt (value : Int) : List Instr :=
  li .t0 (value.bmod 0x100000000) :: push .t0

/-- Pushes a 64-bit constant. -/
def pushLong (value : Int) : List Instr :=
  pushInt (value / 0x100000000) ++ pushInt value

/-- Pushes the local word `index`. -/
def loadWord (index : Int) : List Instr :=
  load .lw .t0 (4 * index) .fp :: push .t0

/-- Pops into the local word `index`. -/
def storeWord (index : Int) : List Instr :=
  pop .t0 ++ [store .sw .t0 (4 * index) .fp]

/-- Pushes a local value of one or two words. -/
def loadLocal (kind : ValueKind) (index : Int) : List Instr :=
  if kind.isWide then loadWord index ++ loadWord (index + 1) else loadWord index

/-- Pops into a local value of one or two words. -/
def storeLocal (kind : ValueKind) (index : Int) : List Instr :=
  if kind.isWide then storeWord (index + 1) ++ storeWord index else storeWord index

/-- Adds a constant to a local word. Constants that do not fit an immediate go through a register. -/
def increment (index value : Int) : List Instr :=
  load .lw .t0 (4 * index) .fp ::
  (if -2048 ≤ value ∧ value < 2048 then [opImm .addi .t0 .t0 value]
    else [li .t1 value, op3 .add .t0 .t0 .t1]) ++
  [store .sw .t0 (4 * index) .fp]

/-- Replaces the two words on top by their combination. -/
def combine (op : Mnemonic) : List Instr :=
  [load .lw .t0 4 .sp, load .lw .t1 0 .sp, op3 op .t0 .t0 .t1] ++ adjust 4 ++ [store .sw .t0 0 .sp]

/-- Negates the word on top. -/
def negate : List Instr :=
  [load .lw .t0 0 .sp, neg .t0 .t0, store .sw .t0 0 .sp]

/-- Shifts the word on top left by `bits` and back by `shift`, which keeps its low bits and extends
them. -/
def narrow (bits : Int) (shift : Mnemonic) : List Instr :=
  [load .lw .t0 0 .sp, opImm .slli .t0 .t0 bits, opImm shift .t0 .t0 bits, store .sw .t0 0 .sp]

/-- The registers that stack words are rearranged in, top of the stack first. -/
def scratch : List Register := [.t0, .t1, .t2, .t3]

/-- Copies the top `count` words below the top `depth` words. -/
def duplicate (depth count : Nat) : List Instr :=
  let words := (scratch.take depth).zipIdx
  words.map (fun (r, i) => load .lw r (4 * i) .sp) ++
  adjust (-4 * count) ++
  words.map (fun (r, i) => store .sw r (4 * i) .sp) ++
  if depth = count then []
  else (words.take count).map fun (r, i) => store .sw r (4 * (depth + i)) .sp

/-- Copies the word on top. -/
def duplicateTop : List Instr :=
  load .lw .t0 0 .sp :: push .t0

/-- Exchanges the two words on top. -/
def swap : List Instr :=
  [load .lw .t0 0 .sp, load .lw .t1 4 .sp, store .sw .t1 0 .sp, store .sw .t0 4 .sp]

/-- Pops a word, or two, and branches on its comparison with zero, or theirs with each other. -/
def branchIf (op : Mnemonic) (againstZero : Bool) (label : String) : List Instr :=
  if againstZero then pop .t0 ++ [branch op .t0 .zero label]
  else pop .t1 ++ pop .t0 ++ [branch op .t0 .t1 label]

/-- Pops a result into the result registers. -/
def popResult (kind : ValueKind) : List Instr :=
  if kind.isWide then pop .a0 ++ pop .a1 else pop .a0

/-- Pushes a result of `words` words from the result registers. -/
def pushResult : (words : Nat) → List Instr
  | 0 => []
  | 1 => push .a0
  | _ => adjust (-8) ++ [store .sw .a0 0 .sp, store .sw .a1 4 .sp]

/-! ### Arrays -/

/-- Replaces the array on top by its length, the word before its elements. -/
def arrayLength (header : Int) : List Instr :=
  [load .lw .t1 0 .sp, load .lw .t0 (header - 4) .t1, store .sw .t0 0 .sp]

/-- Puts the address of an element, less the array header, into `t0`. The array and the index are at
the given offsets from the top. -/
def elementAddress (element : BaseType) (array index : Int) : List Instr :=
  [load .lw .t0 array .sp, load .lw .t1 index .sp, opImm .slli .t1 .t1 element.shift,
    op3 .add .t0 .t0 .t1]

/-- Replaces an array and an index by the element. -/
def arrayLoad (header : Int) (element : BaseType) : List Instr :=
  elementAddress element 4 0 ++
  match loadOp? element.bytes element.isSigned with
  | some op => load op .t2 header .t0 :: adjust 4 ++ [store .sw .t2 0 .sp]
  | none =>
    [load .lw .t2 header .t0, load .lw .t3 (header + 4) .t0, store .sw .t2 0 .sp, store .sw .t3 4 .sp]

/-- Pops an array, an index and a value into the element. -/
def arrayStore (header : Int) (element : BaseType) : List Instr :=
  match storeOp? element.bytes with
  | some op =>
    elementAddress element 8 4 ++ [load .lw .t2 0 .sp] ++ adjust 12 ++ [store op .t2 header .t0]
  | none =>
    elementAddress element 12 8 ++ [load .lw .t2 0 .sp, load .lw .t3 4 .sp] ++ adjust 16 ++
      [store .sw .t2 header .t0, store .sw .t3 (header + 4) .t0]

/-! ### Fields -/

/-- Pushes the static field at `offset` of the pool whose address is `pool`. -/
def getStatic (pool : String) (offset : Int) (type : FieldType) : List Instr :=
  la .t1 pool ::
  match type.loadOp? with
  | some op => load op .t0 offset .t1 :: push .t0
  | none => load .lw .t0 (offset + 4) .t1 :: push .t0 ++ load .lw .t0 offset .t1 :: push .t0

/-- Pops into the static field at `offset` of the pool whose address is `pool`. -/
def putStatic (pool : String) (offset : Int) (type : FieldType) : List Instr :=
  la .t1 pool :: pop .t0 ++
  match type.storeOp? with
  | some op => [store op .t0 offset .t1]
  | none => store .sw .t0 offset .t1 :: pop .t0 ++ [store .sw .t0 (offset + 4) .t1]

/-- Replaces the object on top by its field at `offset`. -/
def getField (offset : Int) (type : FieldType) : List Instr :=
  load .lw .t1 0 .sp ::
  match type.loadOp? with
  | some op => [load op .t0 offset .t1, store .sw .t0 0 .sp]
  | none =>
    adjust (-4) ++ [load .lw .t0 offset .t1, store .sw .t0 0 .sp, load .lw .t0 (offset + 4) .t1,
      store .sw .t0 4 .sp]

/-- Pops an object and a value into the field at `offset`. -/
def putField (offset : Int) (type : FieldType) : List Instr :=
  match type.storeOp? with
  | some op =>
    [load .lw .t1 4 .sp, load .lw .t0 0 .sp, store op .t0 offset .t1] ++ adjust 8
  | none =>
    [load .lw .t1 8 .sp, load .lw .t0 0 .sp, store .sw .t0 offset .t1, load .lw .t0 4 .sp,
      store .sw .t0 (offset + 4) .t1] ++ adjust 12

/-! ### Calls and allocation -/

/-- Pops `words` argument words into the argument registers, the last one from the top. -/
def popArguments (words : Nat) : List Instr :=
  (Register.arguments.take words).zipIdx.map
    (fun (r, i) => load .lw r (4 * ((words : Int) - 1 - i)) .sp) ++
  if 0 < words then adjust (4 * words) else []

/-- Calls the method in vtable slot `slot` of the object in the first argument register. The vtable is
an array whose elements start after the array header. -/
def callVirtual (header : Int) (slot : Nat) : List Instr :=
  [load .lw .t0 0 .a0, load .lw .t0 (header + 4 * slot) .t0, callRegister .t0]

/-- Allocates an object of `size` bytes and pushes it. -/
def allocateObject (allocator : String) (size : Int) (vtable : String) : List Instr :=
  [li .a0 size, la .a1 vtable, call allocator] ++ push .a0

/-- Replaces a length by a new array with elements of `2 ^ shift` bytes. -/
def allocateArray (allocator : String) (header : Int) (shift : Nat) (vtable : String) : List Instr :=
  pop .a0 ++ [opImm .slli .a0 .a0 shift, opImm .addi .a0 .a0 header, la .a1 vtable, call allocator] ++
    push .a0

/-! ### Frames -/

/-- Opens a frame: room for the locals and the two saved registers, then the arguments in the first
locals. -/
def enter (locals : Int) (argumentWords : Nat) : List Instr :=
  [opImm .addi .sp .sp (-((locals + 2) * 4)), store .sw .ra (locals * 4) .sp,
    store .sw .fp ((locals + 1) * 4) .sp, mv .fp .sp] ++
  (Register.arguments.take argumentWords).zipIdx.map fun (r, i) => store .sw r (i * 4) .fp

/-- Closes a frame and returns. A return may leave words on the operand stack, so the top is reset from
the frame base. -/
def leave (locals : Int) : List Instr :=
  [mv .sp .fp, load .lw .fp ((locals + 1) * 4) .sp, load .lw .ra (locals * 4) .sp,
    opImm .addi .sp .sp ((locals + 2) * 4), ret]

end JvmAot.Template
