import JvmAot.Asm.Line
import JvmAot.Proofs.Rv32.Memory
import Mathlib.Logic.Function.Basic
import Mathlib.Logic.Relation

/-! # Running code

The integer instructions of a 32-bit machine with multiplication and division, as far as `Instr` names
them. Pseudo instructions do what they stand for, and immediates are added as the integers they are.

`Machine.run` runs straight-line code, and `wp` says what it ends in. An `Image` is code in memory with
its symbols, through which control moves by `Image.step`. `Image.Holds` says that some lines of assembly
text stand in an image from one address to another, each label meaning the place where it stands. -/

namespace JvmAot

/-! ### Operations -/

namespace Mnemonic

/-- The result of an operation on two registers. Division rounds towards zero; division by zero gives
all ones, and its remainder is the dividend. Shifts take the low five bits of their second operand. -/
def combine? : Mnemonic → Word → Word → Option Word
  | add, x, y => some (x + y)
  | sub, x, y => some (x - y)
  | mul, x, y => some (x * y)
  | div, x, y => some (if y = 0 then -1 else x.sdiv y)
  | rem, x, y => some (if y = 0 then x else x.srem y)
  | and, x, y => some (x &&& y)
  | or, x, y => some (x ||| y)
  | xor, x, y => some (x ^^^ y)
  | sll, x, y => some (x <<< (y.toNat % 32))
  | srl, x, y => some (x >>> (y.toNat % 32))
  | sra, x, y => some (x.sshiftRight (y.toNat % 32))
  | _, _, _ => none

/-- The result of an operation on a register and an immediate. Shift amounts are below 32. -/
def combineImm? : Mnemonic → Word → Int → Option Word
  | addi, x, imm => some (x + BitVec.ofInt 32 imm)
  | slli, x, imm => if 0 ≤ imm ∧ imm < 32 then some (x <<< imm.toNat) else none
  | srli, x, imm => if 0 ≤ imm ∧ imm < 32 then some (x >>> imm.toNat) else none
  | srai, x, imm => if 0 ≤ imm ∧ imm < 32 then some (x.sshiftRight imm.toNat) else none
  | _, _, _ => none

/-- The value that a load gives. -/
def load? : Mnemonic → Memory → Word → Option Word
  | lb, m, a => some ((m a).signExtend 32)
  | lbu, m, a => some ((m a).setWidth 32)
  | lh, m, a => some ((m.halfword a).signExtend 32)
  | lhu, m, a => some ((m.halfword a).setWidth 32)
  | lw, m, a => some (m.word a)
  | _, _, _ => none

/-- The number of bytes that a store writes. -/
def storeSize? : Mnemonic → Option Nat
  | sb => some 1
  | sh => some 2
  | sw => some 4
  | _ => none

/-- Whether a conditional branch is taken. -/
def taken? : Mnemonic → Word → Word → Option Bool
  | beq, x, y => some (x == y)
  | bne, x, y => some (x != y)
  | blt, x, y => some (x.slt y)
  | bge, x, y => some (!x.slt y)
  | bgt, x, y => some (y.slt x)
  | ble, x, y => some (!y.slt x)
  | _, _, _ => none

end Mnemonic

/-! ### Machines -/

/-- Registers and memory. -/
structure Machine where
  regs : Register → Word
  mem : Memory

namespace Machine

/-- The contents of a register. The zero register holds zero whatever is written to it. -/
def get (m : Machine) (r : Register) : Word :=
  if r = .zero then 0 else m.regs r

/-- Writes a register. -/
def set (m : Machine) (r : Register) (w : Word) : Machine :=
  { m with regs := Function.update m.regs r w }

/-- Writes bytes to memory. -/
def store (m : Machine) (a : Word) (bytes : List Byte) : Machine :=
  { m with mem := m.mem.write a bytes }

variable {m m' : Machine} {r q : Register} {w : Word}

@[simp] theorem get_zero : m.get .zero = 0 := rfl

@[simp] theorem get_set_self (h : r ≠ .zero) : (m.set r w).get r = w := by
  simp [get, set, h]

@[simp] theorem get_set_of_ne (h : q ≠ r) : (m.set r w).get q = m.get q := by
  simp [get, set, h]

@[simp] theorem mem_set : (m.set r w).mem = m.mem := rfl

@[simp] theorem get_store (a : Word) (bytes : List Byte) : (m.store a bytes).get r = m.get r := rfl

@[simp] theorem mem_store (a : Word) (bytes : List Byte) :
    (m.store a bytes).mem = m.mem.write a bytes := rfl

/-- Runs an instruction that does not transfer control, given the addresses of symbols. -/
def execute (symbols : String → Option Word) (m : Machine) : Instr → Option Machine
  | .op3 op rd rs1 rs2 => (op.combine? (m.get rs1) (m.get rs2)).map (m.set rd)
  | .opImm op rd rs1 imm => (op.combineImm? (m.get rs1) imm).map (m.set rd)
  | .load op rd offset base =>
    (op.load? m.mem (m.get base + BitVec.ofInt 32 offset)).map (m.set rd)
  | .store op rs offset base =>
    op.storeSize?.map fun n => m.store (m.get base + BitVec.ofInt 32 offset) (lowBytes n (m.get rs))
  | .li rd value => some (m.set rd (BitVec.ofInt 32 value))
  | .la rd symbol => (symbols symbol).map (m.set rd)
  | .mv rd rs => some (m.set rd (m.get rs))
  | .neg rd rs => some (m.set rd (0#32 - m.get rs))
  | .branch .. | .jump _ | .call _ | .callRegister _ | .ret | .plain .. => none

/-- Runs straight-line code. -/
def run (symbols : String → Option Word) : List Instr → Machine → Option Machine
  | [], m => some m
  | i :: rest, m => (m.execute symbols i).bind (run symbols rest)

end Machine

section wp
variable {symbols : String → Option Word} {i : Instr} {code more : List Instr} {m m' : Machine}
  {Q Q' : Machine → Prop}

/-- Straight-line code runs to its end, and `Q` holds there. -/
def wp (symbols : String → Option Word) (code : List Instr) (Q : Machine → Prop) (m : Machine) : Prop :=
  ∃ m', Machine.run symbols code m = some m' ∧ Q m'

theorem wp_nil : wp symbols [] Q m ↔ Q m := by
  simp [wp, Machine.run]

theorem wp_cons : wp symbols (i :: code) Q m ↔ ∃ m', m.execute symbols i = some m' ∧ wp symbols code Q m' := by
  simp only [wp, Machine.run, Option.bind_eq_some_iff]
  constructor
  · rintro ⟨m₂, ⟨m₁, h₁, h₂⟩, hQ⟩; exact ⟨m₁, h₁, m₂, h₂, hQ⟩
  · rintro ⟨m₁, h₁, m₂, h₂, hQ⟩; exact ⟨m₂, ⟨m₁, h₁, h₂⟩, hQ⟩

theorem wp_step (h : m.execute symbols i = some m') (hQ : wp symbols code Q m') :
    wp symbols (i :: code) Q m :=
  wp_cons.2 ⟨m', h, hQ⟩

theorem wp_append : wp symbols (code ++ more) Q m ↔ wp symbols code (wp symbols more Q) m := by
  induction code generalizing m with
  | nil => rw [List.nil_append, wp_nil]
  | cons i code ih => simp only [List.cons_append, wp_cons, ih]

theorem wp_mono (h : wp symbols code Q m) (hQ : ∀ m', Q m' → Q' m') : wp symbols code Q' m :=
  let ⟨m', hrun, hm'⟩ := h; ⟨m', hrun, hQ m' hm'⟩

end wp

/-! ### Images -/

/-- Where an indirect jump goes: the lowest bit of the address is cleared. -/
def jumpTarget (a : Word) : Word :=
  a &&& ~~~1#32

theorem jumpTarget_of_even {a : Word} (h : a.getLsbD 0 = false) : jumpTarget a = a := by
  ext i hi
  rw [jumpTarget, BitVec.getElem_and, BitVec.getElem_not, BitVec.getElem_one]
  rcases i with - | i
  · rw [← BitVec.getLsbD_eq_getElem, h, Bool.false_and]
  · simp

/-- Code in memory. Instructions start and end at even addresses. -/
structure Image where
  /-- The instruction at an address, with the address of the next one. -/
  code : Word → Option (Instr × Word)
  /-- The address of a symbol. -/
  symbol : String → Option Word
  even : ∀ {a i next}, code a = some (i, next) → a.getLsbD 0 = false ∧ next.getLsbD 0 = false

namespace Image
variable {img : Image}

/-- Runs the instruction at the given address. -/
def step (img : Image) : Word × Machine → Option (Word × Machine)
  | (pc, m) =>
    match img.code pc with
    | none => none
    | some (.branch op rs1 rs2 label, next) =>
      match op.taken? (m.get rs1) (m.get rs2) with
      | none => none
      | some true => (img.symbol label).map (·, m)
      | some false => some (next, m)
    | some (.jump label, _) => (img.symbol label).map (·, m)
    | some (.call symbol, next) => (img.symbol symbol).map (·, m.set .ra next)
    | some (.callRegister rs, next) => some (jumpTarget (m.get rs), m.set .ra next)
    | some (.ret, _) => some (jumpTarget (m.get .ra), m)
    | some (i, next) => (m.execute img.symbol i).map (next, ·)

/-- One state leads to another in any number of steps. -/
def Reaches (img : Image) : Word × Machine → Word × Machine → Prop :=
  Relation.ReflTransGen fun s t => img.step s = some t

theorem Reaches.refl (s : Word × Machine) : img.Reaches s s :=
  Relation.ReflTransGen.refl

theorem Reaches.trans {s t u : Word × Machine} (h : img.Reaches s t) (h' : img.Reaches t u) :
    img.Reaches s u :=
  Relation.ReflTransGen.trans h h'

theorem Reaches.head {s t u : Word × Machine} (h : img.step s = some t) (h' : img.Reaches t u) :
    img.Reaches s u :=
  Relation.ReflTransGen.head h h'

theorem Reaches.single {s t : Word × Machine} (h : img.step s = some t) : img.Reaches s t :=
  Relation.ReflTransGen.single h

theorem step_of_execute {a next : Word} {i : Instr} {m m' : Machine} (hc : img.code a = some (i, next))
    (he : m.execute img.symbol i = some m') : img.step (a, m) = some (next, m') := by
  cases i with
  | branch | jump | call | callRegister | ret | plain => cases he
  | op3 | opImm | load | store | li | la | mv | neg => simp only [step, hc, he, Option.map_some]

/-- Lines of assembly text stand in an image between two addresses. Data is no code. -/
def Holds (img : Image) : List Line → Word → Word → Prop
  | [], a, b => a = b
  | .instr i :: rest, a, b => ∃ next, img.code a = some (i, next) ∧ img.Holds rest next b
  | .label name :: rest, a, b => img.symbol name = some a ∧ img.Holds rest a b
  | .blank :: rest, a, b | .comment _ :: rest, a, b | .banner _ :: rest, a, b => img.Holds rest a b
  | .raw _ :: _, _, _ | .segment _ :: _, _, _ | .equate .. :: _, _, _ | .directive .. :: _, _, _ => False

theorem holds_append {lines more : List Line} {a c : Word} :
    img.Holds (lines ++ more) a c ↔ ∃ b, img.Holds lines a b ∧ img.Holds more b c := by
  induction lines generalizing a with
  | nil => simp [Holds]
  | cons line lines ih =>
    cases line with
    | instr i =>
      simp only [List.cons_append, Holds, ih]
      constructor
      · rintro ⟨next, hc, b, hl, hm⟩; exact ⟨b, ⟨next, hc, hl⟩, hm⟩
      · rintro ⟨b, ⟨next, hc, hl⟩, hm⟩; exact ⟨next, hc, b, hl, hm⟩
    | label name =>
      simp only [List.cons_append, Holds, ih]
      constructor
      · rintro ⟨hs, b, hl, hm⟩; exact ⟨b, ⟨hs, hl⟩, hm⟩
      · rintro ⟨b, ⟨hs, hl⟩, hm⟩; exact ⟨hs, b, hl, hm⟩
    | blank | comment | banner => simp only [List.cons_append, Holds, ih]
    | raw | segment | equate | directive => simp [Holds]

/-- Lines have one end, given where they start. -/
theorem Holds.unique {lines : List Line} {a b b' : Word} (h : img.Holds lines a b)
    (h' : img.Holds lines a b') : b = b' := by
  induction lines generalizing a with
  | nil => exact h.symm.trans h'
  | cons line lines ih =>
    cases line with
    | instr i =>
      obtain ⟨next, hc, hl⟩ := h
      obtain ⟨next', hc', hl'⟩ := h'
      rw [hc, Option.some.injEq, Prod.mk.injEq] at hc'
      exact ih hl (hc'.2 ▸ hl')
    | label name => exact ih h.2 h'.2
    | blank | comment | banner => exact ih h h'
    | raw | segment | equate | directive => exact h.elim

/-- Straight-line code runs through in an image. -/
theorem reaches_of_wp {code : List Instr} {a b : Word} {m : Machine} {Q : Machine → Prop}
    (hc : img.Holds (code.map Line.instr) a b) (h : wp img.symbol code Q m) :
    ∃ m', img.Reaches (a, m) (b, m') ∧ Q m' := by
  induction code generalizing a m with
  | nil => obtain rfl : a = b := hc; exact ⟨m, .refl _, wp_nil.1 h⟩
  | cons i code ih =>
    obtain ⟨next, hi, hrest⟩ := hc
    obtain ⟨m₁, he, hwp⟩ := wp_cons.1 h
    obtain ⟨m', hr, hQ⟩ := ih hrest hwp
    exact ⟨m', .head (step_of_execute hi he) hr, hQ⟩

end Image

end JvmAot
