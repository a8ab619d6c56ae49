import JvmAot.Bytecode.Instruction
import JvmAot.Proofs.Rv32.Memory
import Mathlib.Logic.Relation

/-! # Running bytecode

What the virtual machine does with the instructions that concern nothing but the frame of their method:
constants, locals, the operand stack, 32-bit integers, branches and returns. `Frame.step` runs one of
them. It is `none` where no next state is defined: for all other instructions, for an operand stack that
is too short, for a local that does not exist, and for a division by zero, which ends the method with an
exception.

The operand stack and the locals are made of words. A value of two words is pushed high word first, and
its high word has the lower numbered local. A local that nothing was stored in holds just any word. -/

namespace JvmAot

/-! ### Values -/

/-- The words of a 64-bit value on the operand stack, top first. -/
def longWords (v : BitVec 64) : List Word :=
  [v.setWidth 32, (v >>> 32).setWidth 32]

/-- A value on the operand stack. -/
inductive Operand where
  | word (w : Word)
  | wide (v : BitVec 64)
  deriving DecidableEq, Repr

/-- The words of a value on the operand stack, top first. -/
def Operand.words : Operand → List Word
  | word w => [w]
  | wide v => longWords v

/-- The result of an operation on integers; there is none for a division by zero. Division rounds
towards zero. -/
def Arithmetic.compute? : Arithmetic → Int → Int → Option Int
  | add, x, y => some (x + y)
  | sub, x, y => some (x - y)
  | mul, x, y => some (x * y)
  | div, x, y => if y = 0 then none else some (x.tdiv y)
  | rem, x, y => if y = 0 then none else some (x.tmod y)

/-- The result of an operation on bits. Shifts multiply and divide by a power of two, whose exponent is
in the low five bits of the second operand. -/
def Bitwise.compute : Bitwise → Word → Word → Word
  | shl, x, y => BitVec.ofInt 32 (x.toInt * 2 ^ (y.toNat % 32))
  | shr, x, y => BitVec.ofInt 32 (x.toInt / 2 ^ (y.toNat % 32))
  | ushr, x, y => BitVec.ofNat 32 (x.toNat / 2 ^ (y.toNat % 32))
  | and, x, y => x &&& y
  | or, x, y => x ||| y
  | xor, x, y => x ^^^ y

/-- An integer cut down to a smaller type and extended again. -/
def Narrow.compute : Narrow → Word → Word
  | byte, x => (x.setWidth 8).signExtend 32
  | char, x => (x.setWidth 16).setWidth 32
  | short, x => (x.setWidth 16).signExtend 32

/-- Whether a comparison of two integers holds. -/
def Comparison.holds : Comparison → Int → Int → Bool
  | eq, x, y => x == y
  | ne, x, y => x != y
  | lt, x, y => x < y
  | ge, x, y => x ≥ y
  | gt, x, y => x > y
  | le, x, y => x ≤ y

/-! ### Instructions -/

/-- The words that a constant instruction pushes, top first. -/
def Instruction.pushed? (i : Instruction) : Option (List Word) :=
  match i.opcode with
  | .aconstNull => some [0]
  | .iconst index => some [BitVec.ofInt 32 (index.val - 1)]
  | .lconst value => some (longWords (BitVec.ofInt 64 value.val))
  | .bipush | .sipush => some [BitVec.ofInt 32 i.operand]
  | .ldc =>
    match i.constant with
    | some { value := .integer value, .. } => some [BitVec.ofInt 32 value]
    | some { value := .long value, .. } => some (longWords (BitVec.ofInt 64 value))
    | _ => none
  | _ => none

/-- What an instruction that uses only the operand stack makes of it. -/
def Opcode.rearrange? : Opcode → List Word → Option (List Word)
  | nop, s => some s
  | pop, _ :: s => some s
  | pop2, _ :: _ :: s => some s
  | dup, a :: s => some (a :: a :: s)
  | dupX1, a :: b :: s => some (a :: b :: a :: s)
  | dupX2, a :: b :: c :: s => some (a :: b :: c :: a :: s)
  | dup2, a :: b :: s => some (a :: b :: a :: b :: s)
  | dup2X1, a :: b :: c :: s => some (a :: b :: c :: a :: b :: s)
  | dup2X2, a :: b :: c :: d :: s => some (a :: b :: c :: d :: a :: b :: s)
  | swap, a :: b :: s => some (b :: a :: s)
  | arithmetic op .int, y :: x :: s => (op.compute? x.toInt y.toInt).map (BitVec.ofInt 32 · :: s)
  | bitwise op .int, y :: x :: s => some (op.compute x y :: s)
  | negate .int, x :: s => some (BitVec.ofInt 32 (-x.toInt) :: s)
  | narrow target, x :: s => some (target.compute x :: s)
  | _, _ => none

/-- The word in a local. -/
def local? (locals : List Word) (index : Int) : Option Word :=
  if 0 ≤ index then locals[index.toNat]? else none

/-- The locals after a word was stored in one of them. -/
def setLocal? (locals : List Word) (index : Int) (w : Word) : Option (List Word) :=
  if 0 ≤ index ∧ index < locals.length then some (locals.set index.toNat w) else none

theorem local?_eq_some {locals : List Word} {index : Int} {w : Word} (h : local? locals index = some w) :
    ∃ i : Nat, index = i ∧ locals[i]? = some w := by
  obtain ⟨h0, hw⟩ := Option.ite_none_right_eq_some.1 h
  exact ⟨index.toNat, (Int.toNat_of_nonneg h0).symm, hw⟩

theorem setLocal?_eq_some {locals locals' : List Word} {index : Int} {w : Word}
    (h : setLocal? locals index w = some locals') :
    ∃ i : Nat, index = i ∧ i < locals.length ∧ locals' = locals.set i w := by
  obtain ⟨⟨h0, hlt⟩, hw⟩ := Option.ite_none_right_eq_some.1 h
  exact ⟨index.toNat, (Int.toNat_of_nonneg h0).symm, by omega, (Option.some.inj hw).symm⟩

/-- The locals and the operand stack after an instruction that goes on with the next one. -/
def Instruction.operate? (i : Instruction) (locals stack : List Word) : Option (List Word × List Word) :=
  match i.opcode with
  | .load kind =>
    if kind.isWide then do
      let high ← local? locals i.operand
      let low ← local? locals (i.operand + 1)
      some (locals, low :: high :: stack)
    else (local? locals i.operand).map fun w => (locals, w :: stack)
  | .store kind =>
    match kind.isWide, stack with
    | true, low :: high :: stack => do
      let locals ← setLocal? locals (i.operand + 1) low
      let locals ← setLocal? locals i.operand high
      some (locals, stack)
    | false, w :: stack => (setLocal? locals i.operand w).map (·, stack)
    | _, _ => none
  | .iinc => do
    let w ← local? locals i.operand
    let locals ← setLocal? locals i.operand (BitVec.ofInt 32 (w.toInt + i.increment))
    some (locals, stack)
  | .aconstNull | .iconst _ | .lconst _ | .bipush | .sipush | .ldc =>
    i.pushed?.map fun words => (locals, words ++ stack)
  | opcode => (opcode.rearrange? stack).map (locals, ·)

/-- Whether a branch is taken, and the operand stack after it. -/
def Opcode.branch? : Opcode → List Word → Option (Bool × List Word)
  | ifZero c, x :: s => some (c.holds x.toInt 0, s)
  | ifnull, x :: s => some (x == 0, s)
  | ifnonnull, x :: s => some (x != 0, s)
  | ifInt c, y :: x :: s => some (c.holds x.toInt y.toInt, s)
  | ifSame, y :: x :: s => some (x == y, s)
  | ifNotSame, y :: x :: s => some (x != y, s)
  | goto, s => some (true, s)
  | _, _ => none

/-- The words that a return hands back, low word first. -/
def Opcode.result? : Opcode → List Word → Option (List Word)
  | returnVoid, _ => some []
  | returnValue kind, s =>
    match kind.isWide, s with
    | true, low :: high :: _ => some [low, high]
    | false, w :: _ => some [w]
    | _, _ => none
  | _, _ => none

/-! ### Frames -/

/-- The state of a running method. -/
structure Frame where
  /-- The number of the instruction to run. -/
  next : Nat
  /-- The local words. -/
  locals : List Word
  /-- The words of the operand stack, top first. -/
  stack : List Word
  deriving DecidableEq, Repr

/-- What an instruction leads to. -/
inductive Progress where
  | goesOn (f : Frame)
  /-- The method ends with a result of no, one or two words, low word first. -/
  | returns (result : List Word)
  deriving DecidableEq, Repr

namespace Frame

/-- A method before its first instruction. Its arguments are in the first locals. -/
def entry (locals : List Word) : Frame where
  next := 0
  locals
  stack := []

/-- Runs an instruction. -/
def step (instructions : List Instruction) (f : Frame) : Option Progress :=
  match instructions[f.next]? with
  | none => none
  | some i =>
    match i.opcode.result? f.stack with
    | some result => some (.returns result)
    | none =>
      match i.opcode.branch? f.stack with
      | some (true, stack) =>
        (instructions.findIdx? (·.offset == i.target)).map fun next => .goesOn { f with next, stack }
      | some (false, stack) => some (.goesOn { f with next := f.next + 1, stack })
      | none =>
        (i.operate? f.locals f.stack).map fun (locals, stack) =>
          .goesOn { next := f.next + 1, locals, stack }

/-- One frame leads to another in any number of steps, with at most `depth` words on the operand stack. -/
def Reaches (instructions : List Instruction) (depth : Nat) : Frame → Frame → Prop :=
  Relation.ReflTransGen fun f g => f.step instructions = some (.goesOn g) ∧ g.stack.length ≤ depth

/-- What one step can do. -/
theorem step_cases {instructions : List Instruction} {f : Frame} {o : Progress}
    (h : f.step instructions = some o) : ∃ i, instructions[f.next]? = some i ∧
      ((∃ result, i.opcode.result? f.stack = some result ∧ o = .returns result) ∨
      (∃ stack, i.opcode.branch? f.stack = some (true, stack) ∧
        ∃ next, instructions.findIdx? (·.offset == i.target) = some next ∧
          o = .goesOn { f with next, stack }) ∨
      (∃ stack, i.opcode.branch? f.stack = some (false, stack) ∧
        o = .goesOn { f with next := f.next + 1, stack }) ∨
      (∃ locals stack, i.operate? f.locals f.stack = some (locals, stack) ∧
        o = .goesOn { next := f.next + 1, locals, stack })) := by
  unfold step at h
  split at h
  · cases h
  next i hi =>
  refine ⟨i, hi, ?_⟩
  split at h
  · next result hr => exact .inl ⟨result, hr, (Option.some.inj h).symm⟩
  split at h
  · next stack hb =>
    obtain ⟨next, hn, ho⟩ := Option.map_eq_some_iff.1 h
    exact .inr (.inl ⟨stack, hb, next, hn, ho.symm⟩)
  · next stack hb => exact .inr (.inr (.inl ⟨stack, hb, (Option.some.inj h).symm⟩))
  · obtain ⟨⟨locals, stack⟩, ho, heq⟩ := Option.map_eq_some_iff.1 h
    exact .inr (.inr (.inr ⟨locals, stack, ho, heq.symm⟩))

/-- A run stays within the instructions, or comes to their end. -/
theorem Reaches.next_le {instructions : List Instruction} {depth : Nat} {f g : Frame}
    (h : Reaches instructions depth f g) (hf : f.next ≤ instructions.length) :
    g.next ≤ instructions.length := by
  induction h with
  | refl => exact hf
  | tail _ hstep _ =>
    obtain ⟨i, hi, ⟨result, -, ho⟩ | ⟨stack, -, next, hnext, ho⟩ | ⟨stack, -, ho⟩ | ⟨locals, stack, -, ho⟩⟩ :=
      step_cases hstep.1
    · cases ho
    · cases ho
      exact Nat.le_of_lt (List.findIdx?_eq_some_iff_getElem.1 hnext).1
    · cases ho
      exact (List.getElem?_eq_some_iff.1 hi).1
    · cases ho
      exact (List.getElem?_eq_some_iff.1 hi).1

end Frame

end JvmAot
