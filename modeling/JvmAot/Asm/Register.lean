/-! # Registers

The integer registers that generated code uses, by their roles. All other registers are known by their
number, counted from the zero register. -/

namespace JvmAot

/-- A machine register. -/
inductive Register where
  | zero
  /-- The return address. -/
  | ra
  /-- The top of the operand stack. -/
  | sp
  /-- The frame base; locals are addressed off it. -/
  | fp
  | t0
  | t1
  | t2
  | t3
  /-- The registers of the first eight argument words. -/
  | arg (index : Fin 8)
  /-- Any other register. -/
  | numbered (number : Int)
  deriving DecidableEq, Repr, Inhabited

namespace Register

/-- The first argument register, which also holds a result. -/
abbrev a0 : Register := .arg 0

/-- The second argument register, which also holds the high word of a two-word result. -/
abbrev a1 : Register := .arg 1

/-- The argument registers in order. -/
def arguments : List Register :=
  (List.finRange 8).map arg

/-- The number that stands for no register at all, counted from the zero register. -/
def noRegister : Int := -15360

/-- The register with a given number. Numbers are kept in sixteen bits, counted from `noRegister`. -/
def ofNumber (number : Int) : Register :=
  match (number - noRegister).bmod 0x10000 + noRegister with
  | 0 => zero
  | 1 => ra
  | 2 => sp
  | 5 => t0
  | 6 => t1
  | 7 => t2
  | 8 => fp
  | 10 => arg 0
  | 11 => arg 1
  | 12 => arg 2
  | 13 => arg 3
  | 14 => arg 4
  | 15 => arg 5
  | 16 => arg 6
  | 17 => arg 7
  | 28 => t3
  | n => numbered n

/-- The name of a register that has no role: integer registers, then floating-point registers. -/
def numberedName (number : Int) : String :=
  if number = noRegister then "none"
  else if number = 4 then "g"
  else if 0 ≤ number ∧ number < 32 then "x" ++ toString number
  else if 32 ≤ number ∧ number < 64 then "f" ++ toString (number - 32)
  else "rgok(" ++ toString number ++ ")"

/-- The name of a register in assembly text. -/
def name : Register → String
  | zero => "zero"
  | ra => "ra"
  | sp => "sp"
  | fp => "s0"
  | t0 => "t0"
  | t1 => "t1"
  | t2 => "t2"
  | t3 => "t3"
  | arg index => "a" ++ toString index.val
  | numbered number => numberedName number

end Register

end JvmAot
