import JvmAot.Asm.Register

/-! # Instructions

Machine instructions and the pseudo instructions of the assembler, as values. Immediates are integers
and jump targets are labels; both become text only in `Instr.operands`. -/

namespace JvmAot

/-- The instructions by name, machine instructions first. -/
inductive Mnemonic where
  | add | addi | sub | mul | div | rem | and | or | xor
  | sll | slli | sra | srai | srl | srli
  | lb | lbu | lh | lhu | lw | sb | sh | sw
  | beq | bne | blt | bge | jalr
  | li | la | mv | j | call | ret | neg | bgt | ble
  deriving DecidableEq, Repr, Inhabited

namespace Mnemonic

/-- All mnemonics. -/
def all : List Mnemonic :=
  [add, addi, sub, mul, div, rem, and, or, xor, sll, slli, sra, srai, srl, srli, lb, lbu, lh, lhu, lw,
    sb, sh, sw, beq, bne, blt, bge, jalr, li, la, mv, j, call, ret, neg, bgt, ble]

/-- The mnemonic in assembly text. -/
def name : Mnemonic → String
  | add => "add"
  | addi => "addi"
  | sub => "sub"
  | mul => "mul"
  | div => "div"
  | rem => "rem"
  | and => "and"
  | or => "or"
  | xor => "xor"
  | sll => "sll"
  | slli => "slli"
  | sra => "sra"
  | srai => "srai"
  | srl => "srl"
  | srli => "srli"
  | lb => "lb"
  | lbu => "lbu"
  | lh => "lh"
  | lhu => "lhu"
  | lw => "lw"
  | sb => "sb"
  | sh => "sh"
  | sw => "sw"
  | beq => "beq"
  | bne => "bne"
  | blt => "blt"
  | bge => "bge"
  | jalr => "jalr"
  | li => "li"
  | la => "la"
  | mv => "mv"
  | j => "j"
  | call => "call"
  | ret => "ret"
  | neg => "neg"
  | bgt => "bgt"
  | ble => "ble"

end Mnemonic

/-- An instruction with its operands. -/
inductive Instr where
  /-- `op rd, rs1, rs2` -/
  | op3 (op : Mnemonic) (rd rs1 rs2 : Register)
  /-- `op rd, rs1, imm` -/
  | opImm (op : Mnemonic) (rd rs1 : Register) (imm : Int)
  /-- `op rd, offset(base)` -/
  | load (op : Mnemonic) (rd : Register) (offset : Int) (base : Register)
  /-- `op rs, offset(base)` -/
  | store (op : Mnemonic) (rs : Register) (offset : Int) (base : Register)
  /-- `op rs1, rs2, label` -/
  | branch (op : Mnemonic) (rs1 rs2 : Register) (label : String)
  /-- Loads a constant. -/
  | li (rd : Register) (value : Int)
  /-- Loads the address of a symbol. -/
  | la (rd : Register) (symbol : String)
  /-- Copies a register. -/
  | mv (rd rs : Register)
  /-- Negates a register. -/
  | neg (rd rs : Register)
  /-- Jumps to a label. -/
  | jump (label : String)
  /-- Calls a symbol. -/
  | call (symbol : String)
  /-- Calls the address in a register. -/
  | callRegister (rs : Register)
  /-- Returns to the caller. -/
  | ret
  /-- Any instruction with operands that are already text. -/
  | plain (op : Mnemonic) (operands : List String)
  deriving DecidableEq, Repr, Inhabited

namespace Instr

/-- An integer in assembly text; numbers are kept in 64 bits. -/
def number (n : Int) : String :=
  toString (n.bmod 0x10000000000000000)

/-- A memory operand: an offset from the address in a register. -/
def address (offset : Int) (base : Register) : String :=
  number offset ++ "(" ++ base.name ++ ")"

/-- The mnemonic of an instruction. -/
def mnemonic : Instr → Mnemonic
  | op3 op .. | opImm op .. | load op .. | store op .. | branch op .. | plain op _ => op
  | li .. => .li
  | la .. => .la
  | mv .. => .mv
  | neg .. => .neg
  | jump _ => .j
  | call _ => .call
  | callRegister _ => .jalr
  | ret => .ret

/-- The operands of an instruction in assembly text. -/
def operands : Instr → List String
  | op3 _ rd rs1 rs2 => [rd.name, rs1.name, rs2.name]
  | opImm _ rd rs1 imm => [rd.name, rs1.name, number imm]
  | load _ rd offset base => [rd.name, address offset base]
  | store _ rs offset base => [rs.name, address offset base]
  | branch _ rs1 rs2 label => [rs1.name, rs2.name, label]
  | li rd value => [rd.name, number value]
  | la rd symbol => [rd.name, symbol]
  | mv rd rs => [rd.name, rs.name]
  | neg rd rs => [rd.name, rs.name]
  | jump label => [label]
  | call symbol => [symbol]
  | callRegister rs => [rs.name]
  | ret => []
  | plain _ operands => operands

end Instr

end JvmAot
