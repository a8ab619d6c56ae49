import JvmAot.Lowering.Method
import JvmAot.Proofs.Lowering.Storage

/-! # Numbers in machine instructions

An instruction has twelve bits, one of them a sign, for an immediate or an offset (`Fits`), and five for the number of
bits it shifts by (`ShiftsFit`). For each template `Reaches` gives the number that decides whether its code can be
encoded. -/

namespace JvmAot

/-- The shifts by a number in the instruction. -/
def Mnemonic.isShift : Mnemonic → Bool
  | slli | srai | srli => true
  | _ => false

namespace Instr

/-- The immediate or the offset of an instruction. -/
def immediate? : Instr → Option Int
  | opImm op _ _ imm => if op.isShift then none else some imm
  | load _ _ offset _ | store _ _ offset _ => some offset
  | _ => none

/-- The number of bits that an instruction shifts by. -/
def shift? : Instr → Option Int
  | opImm op _ _ imm => if op.isShift then some imm else none
  | _ => none

end Instr

/-- All immediates and offsets have their place in an instruction. -/
def Fits (code : List Instr) : Prop :=
  ∀ n ∈ code.filterMap Instr.immediate?, -2048 ≤ n ∧ n ≤ 2047

/-- All numbers of bits to shift by have their place in an instruction. -/
def ShiftsFit (code : List Instr) : Prop :=
  ∀ n ∈ code.filterMap Instr.shift?, 0 ≤ n ∧ n ≤ 31

instance (code : List Instr) : Decidable (Fits code) :=
  inferInstanceAs (Decidable (∀ n ∈ code.filterMap Instr.immediate?, -2048 ≤ n ∧ n ≤ 2047))

instance (code : List Instr) : Decidable (ShiftsFit code) :=
  inferInstanceAs (Decidable (∀ n ∈ code.filterMap Instr.shift?, 0 ≤ n ∧ n ≤ 31))

section Codes
variable {i : Instr} {code code' : List Instr} {reach : Int}

@[simp]
theorem fits_nil : Fits [] :=
  List.forall_mem_nil _

@[simp]
theorem fits_cons : Fits (i :: code) ↔ (∀ n ∈ i.immediate?, -2048 ≤ n ∧ n ≤ 2047) ∧ Fits code := by
  cases h : i.immediate? <;> simp [Fits, h]

@[simp]
theorem fits_append : Fits (code ++ code') ↔ Fits code ∧ Fits code' := by
  simp only [Fits, List.filterMap_append, List.forall_mem_append]

@[simp]
theorem shiftsFit_nil : ShiftsFit [] :=
  List.forall_mem_nil _

@[simp]
theorem shiftsFit_cons : ShiftsFit (i :: code) ↔ (∀ n ∈ i.shift?, 0 ≤ n ∧ n ≤ 31) ∧ ShiftsFit code := by
  cases h : i.shift? <;> simp [ShiftsFit, h]

@[simp]
theorem shiftsFit_append : ShiftsFit (code ++ code') ↔ ShiftsFit code ∧ ShiftsFit code' := by
  simp only [ShiftsFit, List.filterMap_append, List.forall_mem_append]

attribute [simp] Mnemonic.isShift Instr.immediate? Instr.shift?

/-- Whether the code can be encoded depends on `reach` alone, which must not be too large. -/
structure Reaches (code : List Instr) (reach : Int) : Prop where
  fits_iff : Fits code ↔ reach ≤ 2047
  shifts : ShiftsFit code

/-- Code that can be encoded. -/
structure Small (code : List Instr) : Prop where
  fits : Fits code
  shifts : ShiftsFit code

theorem Small.reaches (h : Small code) (hreach : reach ≤ 2047) : Reaches code reach :=
  ⟨⟨fun _ => hreach, fun _ => h.fits⟩, h.shifts⟩

theorem Small.append (h : Small code) (h' : Small code') : Small (code ++ code') :=
  ⟨fits_append.2 ⟨h.fits, h'.fits⟩, shiftsFit_append.2 ⟨h.shifts, h'.shifts⟩⟩

theorem Reaches.append_small (h : Reaches code reach) (h' : Small code') : Reaches (code ++ code') reach :=
  ⟨fits_append.trans ⟨fun hfits => h.fits_iff.1 hfits.1, fun hreach => ⟨h.fits_iff.2 hreach, h'.fits⟩⟩,
    shiftsFit_append.2 ⟨h.shifts, h'.shifts⟩⟩

theorem Small.append_reaches (h : Small code) (h' : Reaches code' reach) : Reaches (code ++ code') reach :=
  ⟨fits_append.trans ⟨fun hfits => h'.fits_iff.1 hfits.2, fun hreach => ⟨h.fits, h'.fits_iff.2 hreach⟩⟩,
    shiftsFit_append.2 ⟨h.shifts, h'.shifts⟩⟩

end Codes

theorem BaseType.shift_le (b : BaseType) : b.shift ≤ 31 := by
  cases b <;> simp [shift]

namespace Template
variable {index header offset : Int}

/-! ### The operand stack -/

theorem small_push (r : Register) : Small (push r) := by
  constructor <;> simp [push, adjust]

theorem small_pushInt (value : Int) : Small (pushInt value) := by
  have hload (n : Int) : Small [Instr.li .t0 n] := ⟨by simp, by simp⟩
  exact (hload _).append (small_push _)

theorem small_pushLong (value : Int) : Small (pushLong value) :=
  (small_pushInt _).append (small_pushInt _)

theorem small_combine (op : Mnemonic) : Small (combine op) := by
  constructor <;> simp [combine, adjust]

theorem small_branchIf (op : Mnemonic) (againstZero : Bool) (label : String) :
    Small (branchIf op againstZero label) := by
  cases againstZero <;> constructor <;> simp [branchIf, pop, adjust]

theorem small_popResult (kind : ValueKind) : Small (popResult kind) := by
  cases kind <;> constructor <;> decide

theorem small_pushResult (words : Nat) : Small (pushResult words) := by
  unfold pushResult
  split <;> constructor <;> simp [push, adjust]

theorem small_popArguments {words : Nat} (h : words ≤ Register.arguments.length) : Small (popArguments words) := by
  have hall : ∀ words ≤ 8, Fits (popArguments words) ∧ ShiftsFit (popArguments words) := by decide
  exact ⟨(hall words h).1, (hall words h).2⟩

/-! ### Locals -/

theorem reaches_loadLocal (kind : ValueKind) (h : 0 ≤ index) :
    Reaches (loadLocal kind index) (4 * index + if kind.isWide then 4 else 0) := by
  unfold loadLocal
  constructor <;> split <;> simp [loadWord, push, adjust] <;> omega

theorem reaches_storeLocal (kind : ValueKind) (h : 0 ≤ index) :
    Reaches (storeLocal kind index) (4 * index + if kind.isWide then 4 else 0) := by
  unfold storeLocal
  constructor <;> split <;> simp [storeWord, pop, adjust] <;> omega

/-- The increment itself always fits, as one that is too large goes through a register. -/
theorem reaches_increment (value : Int) (h : 0 ≤ index) : Reaches (increment index value) (4 * index) := by
  unfold increment
  constructor <;> split <;> simp <;> omega

/-! ### Arrays -/

theorem reaches_arrayLength (h : 0 ≤ header) : Reaches (arrayLength header) (header - 4) := by
  constructor <;> simp [arrayLength]
  omega

theorem small_elementAddress (element : BaseType) {array index : Int} (harray : 0 ≤ array ∧ array ≤ 2047)
    (hindex : 0 ≤ index ∧ index ≤ 2047) : Small (elementAddress element array index) := by
  have hshift := element.shift_le
  constructor <;> simp [elementAddress] <;> omega

theorem reaches_arrayLoad (element : BaseType) (h : 0 ≤ header) :
    Reaches (arrayLoad header element) (header + if element.bytes = 8 then 4 else 0) := by
  refine (small_elementAddress element (by decide) (by decide)).append_reaches ?_
  cases element <;> constructor <;> simp [BaseType.bytes, BaseType.isSigned, loadOp?, adjust] <;> omega

theorem reaches_arrayStore (element : BaseType) (h : 0 ≤ header) :
    Reaches (arrayStore header element) (header + if element.bytes = 8 then 4 else 0) := by
  unfold arrayStore
  cases element <;> constructor <;> simp [BaseType.bytes, BaseType.shift, storeOp?, adjust, elementAddress] <;> omega

theorem reaches_allocateArray (allocator vtable : String) {shift : Nat} (hshift : shift ≤ 31) (h : 0 ≤ header) :
    Reaches (allocateArray allocator header shift vtable) header := by
  constructor <;> simp [allocateArray, pop, push, adjust] <;> omega

/-! ### Fields and calls -/

theorem reaches_field (access : Lowering.FieldAccess) {f : FieldRef} (h : 0 ≤ f.offset) :
    Reaches (access.code f) (f.offset + if f.type.words = 2 then 4 else 0) := by
  by_cases hwords : f.type.words = 2
  · obtain ⟨hstore, hload⟩ := FieldType.ops_of_words hwords
    cases access <;> constructor <;>
      simp [Lowering.FieldAccess.code, getStatic, putStatic, getField, putField, hstore, hload, hwords, push, pop,
        adjust] <;>
      omega
  · have hone : f.type.words = 1 := by
      unfold FieldType.words at hwords ⊢
      split at hwords <;> simp_all
    obtain ⟨store, hstore, -⟩ := FieldType.storeOp?_of_words hone
    obtain ⟨load, hload, -⟩ := FieldType.loadOp?_of_words hone
    cases access <;> constructor <;>
      simp [Lowering.FieldAccess.code, getStatic, putStatic, getField, putField, hstore, hload, hwords, push, pop,
        adjust] <;>
      omega

theorem reaches_callVirtual (slot : Nat) (h : 0 ≤ header) : Reaches (callVirtual header slot) (header + 4 * slot) := by
  constructor <;> simp [callVirtual]
  omega

theorem small_allocateObject (allocator vtable : String) (size : Int) :
    Small (allocateObject allocator size vtable) := by
  constructor <;> simp [allocateObject, push, adjust]

/-! ### Frames -/

theorem small_argumentStores : ∀ words ≤ Register.arguments.length,
    Fits ((Register.arguments.take words).zipIdx.map fun (r, i) => .store .sw r (i * 4) .fp) ∧
      ShiftsFit ((Register.arguments.take words).zipIdx.map fun (r, i) => .store .sw r (i * 4) .fp) := by
  decide

/-- The frame is the place of the locals and two registers, and its size is added when it is closed. -/
theorem reaches_frame {locals : Int} {words : Nat} (h : 0 ≤ locals) (hwords : words ≤ Register.arguments.length) :
    Reaches (enter locals words ++ leave locals) (4 * (locals + 2)) := by
  obtain ⟨hfits, hshifts⟩ := small_argumentStores words hwords
  constructor
  · simp only [enter, leave, fits_append, hfits]
    simp
    omega
  · simp only [enter, leave, shiftsFit_append, hshifts]
    simp

end Template

end JvmAot
