import JvmAot.Bytecode.Instruction
import JvmAot.ClassFile.Pool

/-! # Bytecode

Instructions in a class file have several encodings for one meaning. Decoding folds them: the forms with
a fixed local become the general form with an operand, the three constant loads become one, and the long
jumps become jumps. -/

namespace JvmAot

/-- What the bytes of one instruction say, and why it is refused if it is. -/
structure DecodedInstruction where
  instruction : Instruction
  refusal : Option Failure := none
  deriving DecidableEq, Repr, Inhabited

namespace Bytecode

open Reading Cursor

/-- Reads the targets of a switch, one number of four bytes for each of `count` cases, after `skip`
bytes that are not looked at. It stops early if the bytes end. -/
def readTargets (offset : Int) (skip : Nat) : (count : Nat) → List Int → Reading (List Int)
  | 0, targets => pure targets.reverse
  | count + 1, targets => do
    let _ ← take skip
    let target := offset + signed 32 (← u4)
    if ← isExhausted then pure targets.reverse
    else readTargets offset skip count (target :: targets)

/-- Skips to the next multiple of four bytes. -/
def align : Reading Unit := do
  let position := (← get).position
  let _ ← take ((4 - position % 4) % 4)

/-- An instruction with a constant operand. -/
def withConstant (i : Instruction) (constant : Except Failure Constant) : DecodedInstruction :=
  match constant with
  | .ok c => { instruction := { i with constant := some c } }
  | .error f => { instruction := i, refusal := some f }

/-- Reads the operands of the instruction at `offset` and folds its opcode. -/
def readOperands (pool : Pool) (offset : Int) (opcode : Opcode) : Reading DecodedInstruction := do
  let plain : Instruction := { offset, opcode }
  match opcode with
  | .loadShort kind index =>
    return { instruction := { plain with opcode := .load kind, operand := index.val } }
  | .storeShort kind index =>
    return { instruction := { plain with opcode := .store kind, operand := index.val } }
  | .load _ | .store _ | .ret | .newarray =>
    return { instruction := { plain with operand := ← u1 } }
  | .bipush => return { instruction := { plain with operand := signed 8 (← u1) } }
  | .sipush => return { instruction := { plain with operand := signed 16 (← u2) } }
  | .ldc => return withConstant plain (pool.constant (← u1))
  | .ldcW | .ldc2W => return withConstant { plain with opcode := .ldc } (pool.constant (← u2))
  | .iinc =>
    let operand ← u1
    return { instruction := { plain with operand, increment := signed 8 (← u1) } }
  | .ifZero _ | .ifInt _ | .ifSame | .ifNotSame | .goto | .jsr | .ifnull | .ifnonnull =>
    return { instruction := { plain with target := offset + signed 16 (← u2) } }
  | .gotoW => return { instruction := { plain with opcode := .goto, target := offset + signed 32 (← u4) } }
  | .jsrW => return { instruction := { plain with opcode := .jsr, target := offset + signed 32 (← u4) } }
  | .tableswitch =>
    align
    let target := offset + signed 32 (← u4)
    let low := signed 32 (← u4)
    let high := signed 32 (← u4)
    let switchTargets ← readTargets offset 0 (high - low + 1).toNat []
    return { instruction := { plain with target, switchTargets } }
  | .lookupswitch =>
    align
    let target := offset + signed 32 (← u4)
    let pairs := signed 32 (← u4)
    let switchTargets ← readTargets offset 4 pairs.toNat []
    return { instruction := { plain with target, switchTargets } }
  | .getstatic | .putstatic | .getfield | .putfield | .invokevirtual | .invokespecial | .invokestatic
  | .new | .anewarray | .checkcast | .instanceof => return withConstant plain (pool.constant (← u2))
  | .invokeinterface | .invokedynamic =>
    let constant := pool.constant (← u2)
    let _ ← u2
    return withConstant plain constant
  | .multianewarray =>
    let constant := pool.constant (← u2)
    return withConstant { plain with operand := ← u1 } constant
  | .wide =>
    let byte := UInt8.ofNat (← u1)
    let wide : Instruction := { plain with opcode := .ofByte byte, operand := ← u2 }
    match wide.opcode with
    | .iinc => return { instruction := { wide with increment := signed 16 (← u2) } }
    | .load _ | .store _ | .ret => return { instruction := wide }
    | _ => return { instruction := wide, refusal := some (Cause.invalidWide byte.toNat : Failure) }
  | .reserved byte =>
    return { instruction := plain, refusal := some (Cause.invalidOpcode byte.toNat : Failure) }
  | _ => return { instruction := plain }

/-- Reads one instruction. -/
def decodeInstruction (pool : Pool) : Decoder Instruction := do
  let byte ← u1
  let offset := (← get).position
  let decoded ← readOperands pool offset (.ofByte (UInt8.ofNat byte))
  let i := decoded.instruction
  match decoded.refusal with
  | some failure => throw (failure.within i.place)
  | none => Decoder.within i.place Decoder.checkEnd
  return i

/-- Reads instructions until no bytes are left. An instruction takes at least one byte, so `fuel` bytes
have at most that many. -/
def decodeInstructions (pool : Pool) : (fuel : Nat) → List Instruction → Decoder (List Instruction)
  | 0, instructions => pure instructions.reverse
  | fuel + 1, instructions => do
    if (← get).rest.isEmpty then pure instructions.reverse
    else decodeInstructions pool fuel ((← decodeInstruction pool) :: instructions)

/-- The instructions that `bytes` encode. -/
def decode (pool : Pool) (bytes : List UInt8) : Except Failure (List Instruction) :=
  (decodeInstructions pool bytes.length []).decode bytes

end Bytecode

end JvmAot
