import JvmAot.Bytecode.Constant
import JvmAot.Bytecode.Opcode

/-! # Instructions of the virtual machine -/

namespace JvmAot

/-- One instruction with its operands. Which operands mean something depends on the opcode. -/
structure Instruction where
  /-- Where the instruction stands in its method, counted behind its opcode byte. -/
  offset : Int
  opcode : Opcode
  /-- An immediate, the index of a local, or a number of dimensions. -/
  operand : Int := 0
  /-- What is added to a local. -/
  increment : Int := 0
  /-- Where a branch goes, or the default target of a switch, on the scale of `offset`. -/
  target : Int := 0
  /-- The other targets of a switch. -/
  switchTargets : List Int := []
  constant : Option Constant := none
  deriving DecidableEq, Repr, Inhabited

namespace Instruction

/-- All jump targets of an instruction. -/
def targets (i : Instruction) : List Int :=
  if i.opcode.isBranch then i.target :: i.switchTargets else []

/-- How messages name the place of an instruction. -/
def place (i : Instruction) : String :=
  i.opcode.mnemonic ++ " at offset " ++ toString i.offset

end Instruction

/-- A range of a method in which exceptions are handled. -/
structure ExceptionHandler where
  start : Nat
  stop : Nat
  handler : Nat
  /-- The class of exceptions, `none` if all are handled. -/
  catchType : Option String
  deriving DecidableEq, Repr, Inhabited

/-- The body of a method. -/
structure Code where
  maxStack : Nat
  maxLocals : Int
  instructions : List Instruction
  handlers : List ExceptionHandler
  deriving DecidableEq, Repr, Inhabited

end JvmAot
