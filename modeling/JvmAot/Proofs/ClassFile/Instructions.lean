import JvmAot.Proofs.ClassFile.Offsets

/-! # Instructions as they are decoded

What holds of every instruction that is read off bytecode (`Instruction.Decoded`): its opcode is a general form, it has a
constant exactly if its opcode takes one, and that constant is the one that the pool has in its slot. An instruction that
is refused is refused as bad input. -/

namespace JvmAot

/-- A look-up or decoding that fails, if it does, because of bad input. -/
def Refuses {α : Type} (r : Except Failure α) : Prop :=
  ∀ f, r = .error f → f.kind = .resolution

section Refuses
variable {α β : Type} {r : Except Failure α}

theorem refuses_ok (a : α) : Refuses (.ok a : Except Failure α) := by
  intro f h
  cases h

theorem refuses_error {f : Failure} (h : f.kind = .resolution) : Refuses (.error f : Except Failure α) := by
  rintro _ ⟨⟩
  exact h

theorem Refuses.bind {next : α → Except Failure β} (hr : Refuses r) (hnext : ∀ a, Refuses (next a)) :
    Refuses (r >>= next) := by
  cases r with
  | error f => exact refuses_error (hr f rfl)
  | ok a => exact hnext a

theorem Refuses.map {g : α → β} (hr : Refuses r) : Refuses (r.map g) := by
  cases r with
  | error f => exact refuses_error (hr f rfl)
  | ok a => exact refuses_ok (g a)

theorem Refuses.locate (hr : Refuses r) (place : String) : Refuses (Failure.locate place r) := by
  cases r with
  | error f => exact refuses_error (hr f rfl)
  | ok a => exact refuses_ok a

end Refuses

namespace Pool

theorem refuses_utf8 (p : Pool) (index : Nat) : Refuses (p.utf8 index) := by
  unfold utf8
  split
  · exact refuses_ok _
  · exact refuses_error rfl

theorem refuses_text (p : Pool) (index : Nat) : Refuses (p.text index) :=
  (p.refuses_utf8 index).map

theorem refuses_className (p : Pool) (index : Nat) : Refuses (p.className index) := by
  unfold className
  split
  · exact p.refuses_text _
  · exact refuses_error rfl

theorem refuses_nameAndType (p : Pool) (index : Nat) : Refuses (p.nameAndType index) := by
  unfold nameAndType
  split
  · exact (p.refuses_text _).bind fun _ => (p.refuses_text _).bind fun _ => refuses_ok _
  · exact refuses_error rfl

theorem refuses_value (p : Pool) (index : Nat) (entry : PoolEntry) : Refuses (p.value index entry) := by
  have huninterpreted (tag : Nat) : Refuses (if uninterpretedTags.contains tag then
      Except.ok (ConstantValue.uninterpreted tag) else .error (Cause.notLoadable index tag : Failure)) := by
    split
    · exact refuses_ok _
    · exact refuses_error rfl
  cases entry with
  | integer | float | long | double => exact refuses_ok _
  | string text => exact (p.refuses_utf8 text).map
  | classRef name => exact (p.refuses_text name).map
  | member tag owner nameAndType =>
    exact (p.refuses_className owner).bind fun _ => (p.refuses_nameAndType nameAndType).bind fun _ => refuses_ok _
  | unusable => exact huninterpreted 0
  | utf8 => exact huninterpreted 1
  | nameAndType => exact huninterpreted 12
  | uninterpreted tag => exact huninterpreted tag

theorem refuses_constant (p : Pool) (index : Nat) : Refuses (p.constant index) := by
  unfold constant
  split
  · exact refuses_error rfl
  · exact (p.refuses_value index _).map

/-- A constant says which slot it comes from. -/
theorem slot_of_constant {p : Pool} {index : Nat} {c : Constant} (h : p.constant index = .ok c) : c.slot = index := by
  unfold constant at h
  split at h
  · cases h
  · rename_i entry _
    cases hvalue : p.value index entry with
    | error => rw [hvalue] at h; cases h
    | ok => rw [hvalue] at h; cases h; rfl

end Pool

/-- The opcodes that decoding replaces by a general form or refuses. -/
def Opcode.isFolded : Opcode → Bool
  | loadShort .. | storeShort .. | ldcW | ldc2W | wide | gotoW | jsrW | reserved _ => true
  | _ => false

/-- These are `ldc_w`, `ldc2_w`, the loads and stores that name their local, `wide`, and all from `goto_w` on. -/
theorem Opcode.isFolded_ofByte (byte : UInt8) : (ofByte byte).isFolded = true ↔
    byte = 19 ∨ byte = 20 ∨ (26 ≤ byte ∧ byte ≤ 45) ∨ (59 ≤ byte ∧ byte ≤ 78) ∨ byte = 196 ∨ 200 ≤ byte := by
  have hall : ∀ n < 256, (ofByte (UInt8.ofNat n)).isFolded = true ↔
      UInt8.ofNat n = 19 ∨ UInt8.ofNat n = 20 ∨ (26 ≤ UInt8.ofNat n ∧ UInt8.ofNat n ≤ 45) ∨
        (59 ≤ UInt8.ofNat n ∧ UInt8.ofNat n ≤ 78) ∨ UInt8.ofNat n = 196 ∨ 200 ≤ UInt8.ofNat n := by
    decide +kernel
  have hbyte := hall byte.toNat byte.toNat_lt
  rwa [UInt8.ofNat_toNat] at hbyte

/-- The opcodes, apart from those that are replaced, with an operand in the pool. -/
def Opcode.takesConstant : Opcode → Bool
  | ldc | getstatic | putstatic | getfield | putfield | invokevirtual | invokespecial | invokestatic
  | invokeinterface | invokedynamic | new | anewarray | checkcast | instanceof | multianewarray => true
  | _ => false

/-- What decoding makes sure of. -/
structure Instruction.Decoded (pool : Pool) (i : Instruction) : Prop where
  general : i.opcode.isFolded = false
  constant_isSome : i.constant.isSome = i.opcode.takesConstant
  constant_eq : ∀ c ∈ i.constant, pool.constant c.slot = .ok c

namespace Bytecode
open Reading
variable {pool : Pool}

/-- An instruction is refused as bad input, or else it is as decoding makes sure of. -/
inductive Sound (pool : Pool) : DecodedInstruction → Prop
  | refused {i : Instruction} {f : Failure} (h : f.kind = .resolution) : Sound pool ⟨i, some f⟩
  | decoded {i : Instruction} (h : i.Decoded pool) : Sound pool ⟨i, none⟩

/-- Whatever the bytes are, what is read is sound. -/
def SoundReading (pool : Pool) (r : Reading DecodedInstruction) : Prop :=
  ∀ c, Sound pool (r c).1

theorem sound_plain {i : Instruction} (hgeneral : i.opcode.isFolded = false) (htakes : i.opcode.takesConstant = false)
    (hnone : i.constant = none) : SoundReading pool (pure { instruction := i }) := by
  refine fun c => .decoded ⟨hgeneral, ?_, ?_⟩
  · rw [hnone, htakes]
    rfl
  · rw [hnone]
    simp

theorem sound_withConstant {i : Instruction} (hgeneral : i.opcode.isFolded = false)
    (htakes : i.opcode.takesConstant = true) (index : Nat) :
    SoundReading pool (pure (withConstant i (pool.constant index))) := by
  intro c
  show Sound pool (withConstant i (pool.constant index))
  cases hconstant : pool.constant index with
  | error f => exact .refused (pool.refuses_constant index f hconstant)
  | ok c =>
    refine .decoded ⟨hgeneral, htakes.symm, ?_⟩
    rintro _ ⟨⟩
    rw [Pool.slot_of_constant hconstant, hconstant]

theorem SoundReading.bind {α : Type} {r : Reading α} {f : α → Reading DecodedInstruction}
    (hf : ∀ a, SoundReading pool (f a)) : SoundReading pool (r >>= f) :=
  fun c => hf (r c).1 (r c).2

theorem sound_readOperands (pool : Pool) (offset : Int) (opcode : Opcode) :
    SoundReading pool (readOperands pool offset opcode) := by
  cases opcode with
  | loadShort _ _ | storeShort _ _ => exact sound_plain rfl rfl rfl
  | load _ | store _ | ret | newarray | bipush | sipush | ifZero _ | ifInt _ | ifSame | ifNotSame | goto | jsr | ifnull
  | ifnonnull | gotoW | jsrW => exact .bind fun _ => sound_plain rfl rfl rfl
  | iinc => exact .bind fun _ => .bind fun _ => sound_plain rfl rfl rfl
  | tableswitch =>
    exact .bind fun _ => .bind fun _ => .bind fun _ => .bind fun _ => .bind fun _ => sound_plain rfl rfl rfl
  | lookupswitch => exact .bind fun _ => .bind fun _ => .bind fun _ => .bind fun _ => sound_plain rfl rfl rfl
  | ldc | ldcW | ldc2W | getstatic | putstatic | getfield | putfield | invokevirtual | invokespecial | invokestatic
  | new | anewarray | checkcast | instanceof => exact .bind fun index => sound_withConstant rfl rfl index
  | invokeinterface | invokedynamic | multianewarray =>
    exact .bind fun index => .bind fun _ => sound_withConstant rfl rfl index
  | wide =>
    refine .bind fun byte => .bind fun operand => ?_
    dsimp only
    cases hopcode : Opcode.ofByte (UInt8.ofNat byte) with
    | iinc => exact .bind fun _ => sound_plain rfl rfl rfl
    | load _ | store _ | ret => exact sound_plain rfl rfl rfl
    | _ => exact fun _ => .refused rfl
  | reserved byte => exact fun _ => .refused rfl
  | _ => exact sound_plain rfl rfl rfl

theorem yields_readOperands (pool : Pool) (offset : Int) (opcode : Opcode) :
    Decoder.Yields (Sound pool) (liftM (readOperands pool offset opcode)) := by
  intro c d c' h
  have hsound := sound_readOperands pool offset opcode c
  rwa [Decoder.lift_of_ok h] at hsound

theorem yields_decodeInstruction (pool : Pool) : Decoder.Yields (Instruction.Decoded pool) (decodeInstruction pool) := by
  refine Decoder.yields_bind fun byte => Decoder.yields_bind fun c => (yields_readOperands pool _ _).bind fun d hd => ?_
  cases hd with
  | refused =>
    intro c i c' h
    obtain ⟨_, _, hthrow, -⟩ := Decoder.bind_of_ok h
    cases hthrow
  | decoded hdecoded => exact Decoder.yields_bind fun _ => Decoder.yields_pure hdecoded

theorem yields_decodeInstructions (pool : Pool) (fuel : Nat) {before : List Instruction}
    (hbefore : ∀ i ∈ before, i.Decoded pool) :
    Decoder.Yields (fun is => ∀ i ∈ is, i.Decoded pool) (decodeInstructions pool fuel before) := by
  induction fuel generalizing before with
  | zero => exact Decoder.yields_pure (by simpa using hbefore)
  | succ fuel ih =>
    refine Decoder.yields_bind fun c => ?_
    split
    · exact Decoder.yields_pure (by simpa using hbefore)
    · refine (yields_decodeInstruction pool).bind fun i hi => ih ?_
      exact List.forall_mem_cons.2 ⟨hi, hbefore⟩

/-- All instructions that bytecode encodes are as decoding makes sure of. -/
theorem decoded_of_decode {bytes : List UInt8} {is : List Instruction} (h : decode pool bytes = .ok is) :
    ∀ i ∈ is, i.Decoded pool :=
  Decoder.decode_of_ok (yields_decodeInstructions pool bytes.length (by simp)) h

end Bytecode

end JvmAot
