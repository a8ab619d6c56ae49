import Mathlib.Algebra.Order.Ring.Int
import JvmAot.Proofs.Lowering.Storage
import JvmAot.Proofs.Rv32.Load

/-! # Allocation of arrays

The code that allocates an array asks a routine for memory, with the size in bytes and the vtable as arguments, and
leaves the array in place of its length on the operand stack. `Lowering.array_allocated_without_length`: the size is
right for every element type, but nothing stores the length, so the code that reads it finds what the routine left
there. -/

namespace JvmAot

open Template

/-! ### Which arrays an instruction allocates -/

/-- The types of arrays of primitive elements with the size of their elements in bytes, by the operand of the
instruction that allocates them. -/
def newarrayTypes : List (Int × String × Nat) :=
  [(4, "[Z", 1), (5, "[C", 2), (6, "[F", 4), (7, "[D", 8), (8, "[B", 1), (9, "[S", 2), (10, "[I", 4), (11, "[J", 8)]

/-- An instruction allocates arrays of a type, with elements of a size in bytes. -/
inductive Instruction.Allocates (i : Instruction) : (descriptor : String) → (bytes : Nat) → Prop
  | primitive {descriptor : String} {bytes : Nat} (hop : i.opcode = .newarray)
      (h : (i.operand, descriptor, bytes) ∈ newarrayTypes) : Allocates i descriptor bytes
  | reference {slot : Nat} {name : String} (hop : i.opcode = .anewarray)
      (h : i.constant = some ⟨slot, .classRef name⟩) : Allocates i (Lowering.arrayOf name) 4

theorem BaseType.two_pow_shift (b : BaseType) : 2 ^ b.shift = b.bytes := by
  cases b <;> rfl

namespace Lowering

/-- The code of an allocation, once it is known where the vtable is. -/
theorem run_allocates {σ : Type} {context : Context σ} (scope : Scope) {i : Instruction} {descriptor label : String}
    {bytes : Nat} {state state' : σ} (hi : i.Allocates descriptor bytes)
    (hanswer : context.answer (.arrayVtable descriptor) state = (.ok label, state')) :
    ∃ shift < 32, 2 ^ shift = bytes ∧ (scope.lower i).run context state =
      ({ code := allocateArray Symbol.allocateMemory scope.header shift label }, state') := by
  cases hi with
  | primitive hop h =>
    obtain ⟨element, hcode, htext, hbytes⟩ : ∃ element, BaseType.ofElementCode? i.operand = some element ∧
        FieldType.toText ⟨1, element, ""⟩ = descriptor ∧ element.bytes = bytes := by
      simp only [newarrayTypes, List.mem_cons, List.not_mem_nil, or_false, Prod.mk.injEq] at h
      rcases h with ⟨hc, rfl, rfl⟩ | ⟨hc, rfl, rfl⟩ | ⟨hc, rfl, rfl⟩ | ⟨hc, rfl, rfl⟩ | ⟨hc, rfl, rfl⟩ |
        ⟨hc, rfl, rfl⟩ | ⟨hc, rfl, rfl⟩ | ⟨hc, rfl, rfl⟩ <;> rw [hc] <;> exact ⟨_, rfl, rfl, rfl⟩
    subst htext
    have hshift : element.shift < 32 := by
      cases element <;> simp [BaseType.shift]
    refine ⟨element.shift, hshift, element.two_pow_shift.trans hbytes, ?_⟩
    rw [Scope.lower, hop]
    simp only [hcode, newArray, run, hanswer]
  | reference hop h =>
    refine ⟨2, by decide, rfl, ?_⟩
    rw [Scope.lower, hop]
    simp only [h, newObjectArray, newArray, run, hanswer]

end Lowering

/-! ### The routine that allocates memory -/

/-- A machine after a routine has allocated memory. It was called with a size in bytes in `a0` and a word in `a1`, and
has returned in `a0` a block of that size with the word in its first place and zeros behind it. The block holds no
address that was in use; the stack pointer, the frame pointer and the memory outside the block are what they were. -/
structure Machine.Allocated (used : Word → Prop) (m m' : Machine) : Prop where
  sp : m'.get .sp = m.get .sp
  fp : m'.get .fp = m.get .fp
  fresh : ∀ k < (m.get .a0).toNat, ¬ used (m'.get .a0 + BitVec.ofNat 32 k)
  first : m'.mem.word (m'.get .a0) = m.get .a1
  zero : ∀ k, 4 ≤ k → k < (m.get .a0).toNat → m'.mem (m'.get .a0 + BitVec.ofNat 32 k) = 0
  kept : ∀ x, (m.get .a0).toNat ≤ (x - m'.get .a0).toNat → m'.mem x = m.mem x

/-- Whenever the routine at an address is called for `size` bytes, it allocates them and returns. -/
def Image.Allocates (img : Image) (entry : Word) (used : Word → Prop) (size : Word) : Prop :=
  ∀ m, m.get .a0 = size → ∃ m', img.Reaches (entry, m) (jumpTarget (m.get .ra), m') ∧ m.Allocated used m'

namespace Machine.Allocated
variable {used : Word → Prop} {m m' : Machine}

theorem mem_of_used (h : m.Allocated used m') {x : Word} (hx : used x) : m'.mem x = m.mem x := by
  refine h.kept x (Nat.le_of_not_lt fun hlt => h.fresh _ hlt ?_)
  rwa [BitVec.ofNat_toNat, BitVec.setWidth_eq, BitVec.add_comm, BitVec.sub_add_cancel]

theorem not_used_add (h : m.Allocated used m') {k d : Nat} (hk : k + d < (m.get .a0).toNat) :
    ¬ used (m'.get .a0 + BitVec.ofNat 32 k + BitVec.ofNat 32 d) := by
  rw [BitVec.add_assoc, ← BitVec.ofNat_add]
  exact h.fresh (k + d) hk

theorem has_zero (h : m.Allocated used m') {k : Nat} (h4 : 4 ≤ k) (hk : k + 4 ≤ (m.get .a0).toNat) :
    m'.mem.Has (m'.get .a0 + BitVec.ofNat 32 k) (lowBytes 4 0) := by
  intro d hd
  have hd4 : d < 4 := by simpa using hd
  rw [getElem_lowBytes, BitVec.add_assoc, ← BitVec.ofNat_add, h.zero (k + d) (by omega) (by omega)]
  exact (BitVec.eq_of_toNat_eq (by simp)).symm

end Machine.Allocated

namespace InFrame

variable {A : Area} {heap : Memory} {base stack : List Word} {m m' m₃ : Machine} {symbols : String → Option Word}
  {used : Word → Prop} {w array : Word} {header : Int}

/-- Allocation leaves the frame as it is. -/
theorem of_allocated (h : InFrame A heap base stack m) (hm : m.Allocated used m') (hused : ∀ x, A.Contains x → used x) :
    InFrame A m'.mem base stack m' := by
  refine ⟨⟨h.stacked.fits, hm.sp.trans h.stacked.sp, fun {i w} hw => ?_, fun _ => rfl⟩, hm.fp.trans h.fp⟩
  have hi := (List.getElem?_eq_some_iff.1 hw).1
  have hfits := h.stacked.fits
  have hbyte (d : Nat) (hd : d < 4) : m'.mem (A.slot ((stack ++ base).length - i) + BitVec.ofNat 32 d) =
      m.mem (A.slot ((stack ++ base).length - i) + BitVec.ofNat 32 d) :=
    hm.mem_of_used (hused _ (A.contains_slot_add (by omega) (by omega) hd))
  rw [← h.stacked.word hw]
  exact Memory.word_congr (by simpa using hbyte 0 (by omega)) (hbyte 1 (by omega)) (hbyte 2 (by omega))
    (hbyte 3 (by omega))

/-- The code that comes before the call: it takes the length off the operand stack and computes the size. -/
theorem wp_request {shift : Nat} {label : String} {vtable : Word} (h : InFrame A heap base (w :: stack) m)
    (hshift : shift < 32) (hlabel : symbols label = some vtable) :
    wp symbols (pop .a0 ++ [Instr.opImm .slli .a0 .a0 shift, Instr.opImm .addi .a0 .a0 header, Instr.la .a1 label])
      (fun m' => InFrame A heap base stack m' ∧ m'.get .a0 = w <<< shift + BitVec.ofInt 32 header ∧
        m'.get .a1 = vtable) m := by
  refine wp_append.2 (wp_mono (h.wp_pop (by decide) (by decide) (by decide)) fun m₁ h₁ => ?_)
  obtain ⟨h₁, hget₁, -⟩ := h₁
  have hslli : m₁.execute symbols (.opImm .slli .a0 .a0 shift) = some (m₁.set .a0 (w <<< shift)) := by
    simp [Machine.execute, Mnemonic.combineImm?, hget₁, show (shift : Int) < 32 by omega]
  have h₂ := h₁.set (r := .a0) (w <<< shift) (by decide) (by decide)
  have h₃ := h₂.set (r := .a0) (w <<< shift + BitVec.ofInt 32 header) (by decide) (by decide)
  refine wp_step hslli (wp_step rfl (wp_cons.2 ⟨_, by simp [Machine.execute, hlabel]; rfl, wp_nil.2 ⟨?_, ?_, ?_⟩⟩))
  · exact h₃.set vtable (by decide) (by decide)
  · simp
  · simp

/-- Whatever stands before the elements of an array is taken as its length. -/
theorem wp_arrayLength_any (h : InFrame A heap base (array :: stack) m) : wp symbols (arrayLength header)
    (InFrame A heap base (m.mem.word (array + BitVec.ofInt 32 (header - 4)) :: stack)) m := by
  refine h.wp_peek (i := 0) rfl rfl ?_
  have h₁ := h.set (r := .t1) array (by decide) (by decide)
  refine wp_readOutside (a := array + BitVec.ofInt 32 (header - 4)) (by simp) rfl ?_
  refine (h₁.set (r := .t0) _ (by decide) (by decide)).wp_poke (i := 0) rfl (by simp) fun m₂ h₂ _ => wp_nil.2 ?_
  rw [Machine.get_set_self (by decide)] at h₂
  exact h₂

/-- The word before the elements belongs to the new block, where the stack does not reach. -/
theorem length_of_allocated (h : InFrame A m'.mem base stack m₃) (hm : m.Allocated used m')
    (hused : ∀ x, A.Contains x → used x) (hheader : 8 ≤ header) (hsize : header ≤ (m.get .a0).toNat) :
    m₃.mem.word (m'.get .a0 + BitVec.ofInt 32 (header - 4)) = 0 := by
  obtain ⟨k, hk⟩ := Int.eq_ofNat_of_zero_le (show 0 ≤ header - 4 by omega)
  have hfits : k + 4 ≤ (m.get .a0).toNat := by omega
  rw [hk, BitVec.ofInt_natCast]
  refine (h.has (hm.has_zero (by omega) hfits) fun d hd hin => ?_).word
  rw [length_lowBytes] at hd
  exact hm.not_used_add (by omega) (hused _ hin)

end InFrame

namespace Image

variable {img : Image} {A : Area} {heap : Memory} {base stack : List Word} {m : Machine} {used : Word → Prop}
  {a b entry vtable w size : Word} {header : Int} {shift : Nat} {label : String}

/-- The code of an allocation calls the routine with the size of the array and its vtable, and leaves what the routine
returns in place of the length. -/
theorem reaches_allocateArray {allocator : String}
    (hcode : img.Holds ((allocateArray allocator header shift label).map Line.instr) a b) (hshift : shift < 32)
    (hentry : img.symbol allocator = some entry) (hlabel : img.symbol label = some vtable)
    (hsize : w <<< shift + BitVec.ofInt 32 header = size) (hused : ∀ x, A.Contains x → used x)
    (halloc : img.Allocates entry used size) (h : InFrame A heap base (w :: stack) m) :
    ∃ m₁ m₂ m₃, img.Reaches (a, m) (entry, m₁) ∧ m₁.get .a0 = size ∧ m₁.get .a1 = vtable ∧
      img.Reaches (entry, m₁) (jumpTarget (m₁.get .ra), m₂) ∧ m₁.Allocated used m₂ ∧
      img.Reaches (jumpTarget (m₁.get .ra), m₂) (b, m₃) ∧ InFrame A m₂.mem base (m₂.get .a0 :: stack) m₃ := by
  have hsplit : (allocateArray allocator header shift label).map Line.instr =
      (pop .a0 ++ [Instr.opImm .slli .a0 .a0 shift, Instr.opImm .addi .a0 .a0 header, Instr.la .a1 label]).map
        Line.instr ++ (Line.instr (.call allocator) :: (push .a0).map Line.instr) := rfl
  rw [hsplit] at hcode
  obtain ⟨c, hrequest, back, hcall, hpush⟩ := holds_append.1 hcode
  -- instructions stand at even addresses, so the routine returns to where the call says
  have hback : jumpTarget back = back := jumpTarget_of_even (img.even hcall).2
  obtain ⟨m₀, hr₀, h₀, hsize₀, hvtable₀⟩ := reaches_of_wp hrequest (h.wp_request hshift hlabel)
  have hstep : img.step (c, m₀) = some (entry, m₀.set .ra back) := by
    simp [Image.step, hcall, hentry]
  have h₁ := h₀.set (r := .ra) back (by decide) (by decide)
  have hsize₁ : (m₀.set .ra back).get .a0 = size := by
    rw [Machine.get_set_of_ne (by decide), hsize₀, hsize]
  have hra₁ : (m₀.set .ra back).get .ra = back := Machine.get_set_self (by decide)
  obtain ⟨m₂, hr₂, hm₂⟩ := halloc _ hsize₁
  have h₂ := h₁.of_allocated hm₂ hused
  have room : stack.length + 1 + base.length ≤ A.capacity := by
    have := h.stacked.fits
    simp only [List.length_append, List.length_cons] at this
    omega
  rw [hra₁, hback] at hr₂
  obtain ⟨m₃, hr₃, h₃, -⟩ := reaches_of_wp hpush (h₂.wp_push (r := .a0) (by decide) room)
  refine ⟨m₀.set .ra back, m₂, m₃, hr₀.trans (.single hstep), hsize₁, ?_, ?_, hm₂, ?_, h₃⟩
  · rw [Machine.get_set_of_ne (by decide), hvtable₀]
  · rwa [hra₁, hback]
  · rwa [hra₁, hback]

end Image

theorem shiftLeft_add_ofInt (n shift : Nat) (header : Int) :
    BitVec.ofNat 32 n <<< shift + BitVec.ofInt 32 header = BitVec.ofInt 32 (header + n * (2 ^ shift : Nat)) := by
  have hshift : BitVec.ofNat 32 n <<< shift = BitVec.ofNat 32 (n * 2 ^ shift) := by
    rw [BitVec.shiftLeft_eq_mul_twoPow, BitVec.ofNat_mul]
    congr 1
    exact BitVec.eq_of_toNat_eq (by rw [BitVec.toNat_twoPow, BitVec.toNat_ofNat])
  rw [hshift, BitVec.ofInt_add, BitVec.add_comm, ← BitVec.ofInt_natCast, Int.natCast_mul]

/-- Arrays are allocated with the right size and do not know their length. For every element type, every header of at
least two words and every length below 2 ^ 27, with a routine that returns new memory filled with zeros: the code of
the allocation asks for as many bytes as header and elements take, with the vtable of the array type, and leaves the
new array in place of its length; nothing else changes outside the stack. The code for the length of an array, run
next, then leaves zero, which is the length only of an empty array. -/
theorem Lowering.array_allocated_without_length {σ : Type} (context : Context σ) (scope : Scope)
    (hheader : 8 ≤ scope.header) (i length : Instruction) {descriptor : String} {bytes : Nat}
    (hi : i.Allocates descriptor bytes) (hlength : length.opcode = .arraylength) {state state' : σ} {label : String}
    (hanswer : context.answer (.arrayVtable descriptor) state = (.ok label, state')) (n : Nat) (hn : n < 2 ^ 27) :
    ∃ code lengthCode, (scope.lower i).run context state = ({ code }, state') ∧
      (scope.lower length).run context state' = ({ code := lengthCode }, state') ∧
      ∀ (img : Image) (a b c entry vtable : Word) (A : Area) (used : Word → Prop) (heap : Memory)
        (base stack : List Word) (m : Machine),
        img.Holds (code.map Line.instr) a b → img.Holds (lengthCode.map Line.instr) b c →
        img.symbol Symbol.allocateMemory = some entry → img.symbol label = some vtable →
        (∀ x, A.Contains x → used x) → img.Allocates entry used (BitVec.ofInt 32 (scope.header + n * bytes)) →
        InFrame A heap base (BitVec.ofNat 32 n :: stack) m →
        ∃ m₁ m₂ m₃ m₄ word,
          (img.Reaches (a, m) (entry, m₁) ∧ m₁.get .a0 = BitVec.ofInt 32 (scope.header + n * bytes) ∧
            m₁.get .a1 = vtable) ∧
          (img.Reaches (entry, m₁) (jumpTarget (m₁.get .ra), m₂) ∧ m₁.Allocated used m₂) ∧
          (img.Reaches (jumpTarget (m₁.get .ra), m₂) (b, m₃) ∧ InFrame A m₂.mem base (m₂.get .a0 :: stack) m₃) ∧
          (img.Reaches (b, m₃) (c, m₄) ∧ InFrame A m₂.mem base (word :: stack) m₄) ∧
          (scope.header + n * bytes < 2 ^ 32 →
            (m₁.get .a0).toNat = scope.header + n * bytes ∧ word = 0 ∧ (word = BitVec.ofNat 32 n ↔ n = 0)) := by
  obtain ⟨shift, hshift, rfl, hrun⟩ := run_allocates scope hi hanswer
  have hrunLength : (scope.lower length).run context state' = ({ code := arrayLength scope.header }, state') := by
    rw [Scope.lower, hlength]
    rfl
  refine ⟨_, _, hrun, hrunLength, ?_⟩
  intro img a b c entry vtable A used heap base stack m hcode hcodeLength hentry hlabel hused halloc h
  obtain ⟨m₁, m₂, m₃, hr₁, hsize, hvtable, hr₂, hm₂, hr₃, h₃⟩ := Image.reaches_allocateArray hcode hshift hentry hlabel
    (shiftLeft_add_ofInt n shift scope.header) hused halloc h
  obtain ⟨m₄, hr₄, h₄⟩ := Image.reaches_of_wp hcodeLength h₃.wp_arrayLength_any
  refine ⟨m₁, m₂, m₃, m₄, _, ⟨hr₁, hsize, hvtable⟩, ⟨hr₂, hm₂⟩, ⟨hr₃, h₃⟩, ⟨hr₄, h₄⟩, fun hfits => ?_⟩
  -- the size is a word as it is, so the word before the elements is inside the block
  have hsizeNat : ((m₁.get .a0).toNat : Int) = scope.header + n * (2 ^ shift : Nat) := by
    have hnonneg : 0 ≤ scope.header + n * (2 ^ shift : Nat) :=
      Int.add_nonneg (by omega) (Int.natCast_nonneg (n * 2 ^ shift))
    obtain ⟨size, hsizeEq⟩ := Int.eq_ofNat_of_zero_le hnonneg
    rw [hsizeEq] at hsize hfits ⊢
    rw [hsize, BitVec.ofInt_natCast, BitVec.toNat_ofNat, Nat.mod_eq_of_lt (by omega)]
  have hzero := h₃.length_of_allocated hm₂ hused hheader
    (by rw [hsizeNat]; have := Int.natCast_nonneg (n * 2 ^ shift); omega)
  refine ⟨hsizeNat, hzero, ?_⟩
  rw [hzero, eq_comm, ← BitVec.toNat_inj, BitVec.toNat_ofNat, Nat.mod_eq_of_lt (by omega)]
  rfl

/-! ### A routine with one block to give -/

namespace OneBlock

/-- Fills the 20 bytes at 0x4000. -/
def fill : List Instr :=
  [.li .t0 0x4000, .store .sw .a1 0 .t0, .store .sw .zero 4 .t0, .store .sw .zero 8 .t0, .store .sw .zero 12 .t0,
    .store .sw .zero 16 .t0, .mv .a0 .t0]

/-- Code that allocates an array and takes its length, and behind it the routine that gives the block away. -/
def program (header : Int) (shift : Nat) : List Line :=
  (allocateArray Symbol.allocateMemory header shift "vtable").map Line.instr ++ ((arrayLength header).map Line.instr ++
    (Line.label Symbol.allocateMemory :: (fill.map Line.instr ++ [Line.instr .ret, Line.label "vtable"])))

/-- All addresses but those of the block. -/
def InUse (x : Word) : Prop :=
  20 ≤ (x - 0x4000#32).toNat

def context : Context Unit where
  answer
    | .arrayVtable _, () => (.ok "vtable", ())
    | _, () => (.error (Cause.exceptionHandlers "" "" : Failure), ())

def stackArea : Area := ⟨0x10000, 4, by decide⟩

/-- A machine with one word on the operand stack. -/
def machine (length : Word) : Machine where
  regs := fun
    | .sp => 0xfffc
    | _ => 0x10000
  mem := Memory.write (fun _ => 0) 0xfffc (lowBytes 4 length)

theorem inFrame_machine (length : Word) : InFrame stackArea (machine length).mem [] [length] (machine length) := by
  have hslot : stackArea.slot 1 = 0xfffc := by decide
  have hbase : stackArea.slot 0 = 0x10000 := by decide
  refine ⟨⟨Nat.le_of_ble_eq_true rfl, hslot.symm, fun {i w} hw => ?_, fun _ => rfl⟩, ?_⟩
  · match i with
    | 0 =>
      cases hw
      rw [List.append_nil, List.length_singleton, Nat.sub_zero, hslot]
      exact Memory.word_write_self length
    | i + 1 => cases hw
  · exact hbase.symm

theorem inUse_of_contains {x : Word} (h : stackArea.Contains x) : InUse x := by
  obtain ⟨hpos, hle⟩ := h
  unfold stackArea at hpos hle
  unfold InUse
  bv_omega

/-- The stores of the routine are one write. -/
theorem write_block (mem : Memory) (w : Word) :
    (((((mem.write 0x4000 (lowBytes 4 w)).write 0x4004 (lowBytes 4 0)).write 0x4008 (lowBytes 4 0)).write 0x400c
      (lowBytes 4 0)).write 0x4010 (lowBytes 4 0)) = mem.write 0x4000 (lowBytes 4 w ++ List.replicate 16 0) := by
  have hzero : List.replicate 16 (0 : Byte) = lowBytes 4 0 ++ (lowBytes 4 0 ++ (lowBytes 4 0 ++ lowBytes 4 0)) := by
    decide
  rw [hzero]
  simp [← Memory.write_append]

theorem allocates_fill {img : Image} {entry b c : Word} (hcode : img.Holds (fill.map .instr) entry b)
    (hret : img.code b = some (.ret, c)) : img.Allocates entry InUse 20 := by
  intro m hsize
  have hfill : wp img.symbol fill (fun m' => m'.get .sp = m.get .sp ∧ m'.get .fp = m.get .fp ∧ m'.get .ra = m.get .ra ∧
      m'.get .a0 = 0x4000 ∧ m'.mem = m.mem.write 0x4000 (lowBytes 4 (m.get .a1) ++ List.replicate 16 0)) m := by
    refine wp_step rfl (wp_step rfl (wp_step rfl (wp_step rfl (wp_step rfl (wp_step rfl (wp_step rfl (wp_nil.2 ?_)))))))
    rw [← write_block]
    simp
  obtain ⟨m', hr, hsp, hfp, hra, ha0, hmem⟩ := Image.reaches_of_wp hcode hfill
  have hstep : img.step (b, m') = some (jumpTarget (m'.get .ra), m') := by
    simp [Image.step, hret]
  have hlength : (lowBytes 4 (m.get .a1) ++ List.replicate 16 0).length = 20 := by simp
  have hhas : m'.mem.Has 0x4000 (lowBytes 4 (m.get .a1) ++ List.replicate 16 0) := by
    rw [hmem]
    exact Memory.has_write (by rw [hlength]; decide)
  rw [← hra]
  refine ⟨m', hr.trans (.single hstep), hsp, hfp, fun k hk => ?_, ?_, fun k h4 hk => ?_, fun x hx => ?_⟩
  · rw [hsize] at hk
    rw [ha0, InUse]
    bv_omega
  · rw [ha0]
    exact (Memory.has_append.1 hhas).1.word
  · rw [hsize] at hk
    rw [ha0, hhas k (by rw [hlength]; exact hk), List.getElem_append_right (by simpa using h4)]
    exact List.getElem_replicate _
  · rw [hsize, ha0] at hx
    rw [hmem, Memory.write_apply_of_le (by rw [hlength]; exact hx)]

theorem holds_program (header : Int) (shift : Nat) : ∃ img : Image, ∃ b c vtable,
    img.Holds ((allocateArray Symbol.allocateMemory header shift "vtable").map .instr) 0 b ∧
      img.Holds ((arrayLength header).map .instr) b c ∧ img.symbol Symbol.allocateMemory = some c ∧
      img.symbol "vtable" = some vtable ∧ img.Allocates c InUse 20 := by
  have hisCode : (program header shift).all Line.isCode = true := rfl
  have hlabels : (program header shift).filterMap Line.label? = [Symbol.allocateMemory, "vtable"] := rfl
  have hroom : Image.room (fun _ => 1) (program header shift) = 38 := rfl
  have hholds : (Image.load (fun _ => 1) (program header shift) 0).Holds (program header shift) (Image.address 0)
      (Image.address (0 + Image.room (fun _ => 1) (program header shift))) :=
    Image.load_holds (List.all_eq_true.1 hisCode) (by rw [hlabels]; decide) (by rw [hroom]; decide)
  obtain ⟨b, hcode, hrest⟩ := Image.holds_append.1 hholds
  obtain ⟨c, hlength, hentry, hrest⟩ := Image.holds_append.1 hrest
  obtain ⟨d, hfill, _, hret, hvtable, -⟩ := Image.holds_append.1 hrest
  exact ⟨_, b, c, _, hcode, hlength, hentry, hvtable, allocates_fill hfill hret⟩

/-- An array of one long, with a header of three words. -/
theorem array_of_one_long_forgets_its_length : ∃ (img : Image) (b c entry vtable : Word) (m₁ m₂ m₃ m₄ : Machine),
    img.Allocates entry InUse 20 ∧ InFrame stackArea (machine 1).mem [] [1] (machine 1) ∧
      (img.Reaches (0, machine 1) (entry, m₁) ∧ m₁.get .a0 = 20 ∧ m₁.get .a1 = vtable) ∧ m₁.Allocated InUse m₂ ∧
      (img.Reaches (b, m₃) (c, m₄) ∧ InFrame stackArea m₂.mem [] [m₂.get .a0] m₃) ∧
      InFrame stackArea m₂.mem [] [0] m₄ := by
  have hi : Instruction.Allocates { offset := 1, opcode := .newarray, operand := 11 } "[J" 8 :=
    .primitive rfl (by decide)
  have hanswer : context.answer (.arrayVtable "[J") () = (.ok "vtable", ()) := rfl
  obtain ⟨code, lengthCode, hrun, hrunLength, hall⟩ := Lowering.array_allocated_without_length context
    ⟨"Main_main_V", [], 12⟩ (by decide) _ { offset := 3, opcode := .arraylength } hi rfl hanswer 1 (by decide)
  cases hrun
  cases hrunLength
  obtain ⟨img, b, c, vtable, hcode, hlength, hentry, hvtable, halloc⟩ := holds_program 12 3
  obtain ⟨m₁, m₂, m₃, m₄, word, hcall, ⟨-, hm₂⟩, ⟨-, h₃⟩, ⟨hr, h₄⟩, hzero⟩ := hall img 0 b c c vtable stackArea InUse
    (machine 1).mem [] [] (machine 1) hcode hlength hentry hvtable (fun _ => inUse_of_contains) halloc
    (inFrame_machine 1)
  rw [(hzero (by decide)).2.1] at h₄
  exact ⟨img, b, c, c, vtable, m₁, m₂, m₃, m₄, halloc, inFrame_machine 1, hcall, hm₂, ⟨hr, h₃⟩, h₄⟩

/-- An array of three integers has length zero when it is asked for it. -/
theorem length_of_new_array_lost : ∃ (code lengthCode : List Instr) (img : Image) (b c entry : Word) (m : Machine),
    (Scope.lower ⟨"Main_f__I", [], 8⟩ { offset := 2, opcode := .newarray, operand := 10 }).run context () =
      ({ code }, ()) ∧
    (Scope.lower ⟨"Main_f__I", [], 8⟩ { offset := 4, opcode := .arraylength }).run context () =
      ({ code := lengthCode }, ()) ∧
    img.Holds (code.map .instr) 0 b ∧ img.Holds (lengthCode.map .instr) b c ∧
    img.symbol Symbol.allocateMemory = some entry ∧ img.Allocates entry InUse 20 ∧
    InFrame stackArea (machine 3).mem [] [3] (machine 3) ∧ img.Reaches (0, machine 3) (c, m) ∧
    InFrame stackArea m.mem [] [0] m := by
  obtain ⟨img, b, c, vtable, hcode, hlength, hentry, hvtable, halloc⟩ := holds_program 8 2
  obtain ⟨m₁, m₂, m₃, hr₁, hsize, -, hr₂, hm₂, hr₃, h₃⟩ := Image.reaches_allocateArray hcode (by decide) hentry hvtable
    (by decide) (fun _ => inUse_of_contains) halloc (inFrame_machine 3)
  obtain ⟨m₄, hr₄, h₄⟩ := Image.reaches_of_wp hlength h₃.wp_arrayLength_any
  rw [h₃.length_of_allocated hm₂ (fun _ => inUse_of_contains) (by decide) (by rw [hsize]; decide)] at h₄
  refine ⟨_, _, img, b, c, c, m₄, rfl, rfl, hcode, hlength, hentry, halloc, inFrame_machine 3,
    hr₁.trans (hr₂.trans (hr₃.trans hr₄)), ?_⟩
  exact ⟨⟨h₄.stacked.fits, h₄.stacked.sp, h₄.stacked.word, fun _ => rfl⟩, h₄.fp⟩

end OneBlock

end JvmAot
