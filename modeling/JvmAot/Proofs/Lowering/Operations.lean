import JvmAot.Lowering.Instruction
import JvmAot.Proofs.Bytecode.Frame
import JvmAot.Proofs.Rv32.Machine

/-! # Operations of the two machines

The machine instruction that an integer operation, a comparison or a conversion is lowered to computes
what the virtual machine defines by arithmetic on integers. -/

namespace JvmAot

theorem combine?_arithmeticOp {op : Arithmetic} {x y : Word} {z : Int}
    (h : op.compute? x.toInt y.toInt = some z) :
    (Lowering.arithmeticOp op).combine? x y = some (BitVec.ofInt 32 z) := by
  cases op with
  | add =>
    obtain rfl : x.toInt + y.toInt = z := Option.some.inj h
    rw [BitVec.ofInt_add, BitVec.ofInt_toInt, BitVec.ofInt_toInt]; rfl
  | sub =>
    obtain rfl : x.toInt - y.toInt = z := Option.some.inj h
    rw [Int.sub_eq_add_neg, BitVec.ofInt_add, BitVec.ofInt_neg, BitVec.ofInt_toInt, BitVec.ofInt_toInt,
      ← BitVec.sub_eq_add_neg]
    rfl
  | mul =>
    obtain rfl : x.toInt * y.toInt = z := Option.some.inj h
    rw [BitVec.ofInt_mul, BitVec.ofInt_toInt, BitVec.ofInt_toInt]; rfl
  | div =>
    simp only [Arithmetic.compute?] at h
    split at h
    · cases h
    next hy =>
    cases h
    have hy' : y ≠ 0 := fun h0 => hy (by rw [h0]; rfl)
    rw [Lowering.arithmeticOp, Mnemonic.combine?, if_neg hy', Option.some.injEq]
    exact BitVec.eq_of_toInt_eq (by rw [BitVec.toInt_sdiv, BitVec.toInt_ofInt])
  | rem =>
    simp only [Arithmetic.compute?] at h
    split at h
    · cases h
    next hy =>
    cases h
    have hy' : y ≠ 0 := fun h0 => hy (by rw [h0]; rfl)
    rw [Lowering.arithmeticOp, Mnemonic.combine?, if_neg hy', Option.some.injEq, ← BitVec.toInt_srem,
      BitVec.ofInt_toInt]

theorem shiftLeft_eq_ofInt (x : Word) (n : Nat) : x <<< n = BitVec.ofInt 32 (x.toInt * 2 ^ n) := by
  have h : BitVec.ofInt 32 (2 ^ n) = BitVec.twoPow 32 n := by
    apply BitVec.eq_of_toNat_eq
    rw [show (2 : Int) ^ n = ((2 ^ n : Nat) : Int) by simp, BitVec.ofInt_natCast, BitVec.toNat_twoPow,
      BitVec.toNat_ofNat]
  rw [BitVec.ofInt_mul, BitVec.ofInt_toInt, h, BitVec.shiftLeft_eq_mul_twoPow]

theorem sshiftRight_eq_ofInt (x : Word) (n : Nat) :
    x.sshiftRight n = BitVec.ofInt 32 (x.toInt / 2 ^ n) := by
  rw [← BitVec.ofInt_toInt (x := x.sshiftRight n), BitVec.toInt_sshiftRight, Int.shiftRight_eq_div_pow]
  simp

theorem ushiftRight_eq_ofNat (x : Word) (n : Nat) : x >>> n = BitVec.ofNat 32 (x.toNat / 2 ^ n) := by
  apply BitVec.eq_of_toNat_eq
  rw [BitVec.toNat_ushiftRight, Nat.shiftRight_eq_div_pow, BitVec.toNat_ofNat, Nat.mod_eq_of_lt]
  exact Nat.lt_of_le_of_lt (Nat.div_le_self ..) x.isLt

theorem combine?_bitwiseOp (op : Bitwise) (x y : Word) :
    (Lowering.bitwiseOp op).combine? x y = some (op.compute x y) := by
  cases op with
  | shl => exact congrArg some (shiftLeft_eq_ofInt ..)
  | shr => exact congrArg some (sshiftRight_eq_ofInt ..)
  | ushr => exact congrArg some (ushiftRight_eq_ofNat ..)
  | and | or | xor => rfl

theorem taken?_branchOp (c : Comparison) (x y : Word) :
    (Lowering.branchOp c).taken? x y = some (c.holds x.toInt y.toInt) := by
  have heq : (x == y) = (x.toInt == y.toInt) := by
    rw [Bool.eq_iff_iff, beq_iff_eq, beq_iff_eq, BitVec.toInt_inj]
  cases c with
  | eq => exact congrArg some heq
  | ne => exact congrArg (some !·) heq
  | lt | gt => rfl
  | ge | le => simp [Lowering.branchOp, Mnemonic.taken?, Comparison.holds, BitVec.slt_eq_decide, ← decide_not]

/-! ### Conversions -/

theorem sshiftRight_shiftLeft (x : Word) {n k : Nat} (h : n + k = 32) (hn : 0 < n) :
    (x <<< k).sshiftRight k = (x.setWidth n).signExtend 32 := by
  ext i hi
  rw [BitVec.getElem_sshiftRight, BitVec.getElem_signExtend]
  split
  · have hin : i < n := by omega
    simp [hin, show ¬ k + i < k by omega, BitVec.getLsbD_eq_getElem hi]
  · have hlast : 31 - k = n - 1 := by omega
    rw [dif_neg (by omega), BitVec.msb_eq_getLsbD_last, BitVec.msb_eq_getLsbD_last]
    have hbit : x.getLsbD (n - 1) = x[n - 1] := BitVec.getLsbD_eq_getElem _
    simp [hlast, hbit, show ¬ 31 < k by omega, show n - 1 < n by omega]

theorem ushiftRight_shiftLeft (x : Word) {n k : Nat} (h : n + k = 32) :
    (x <<< k) >>> k = (x.setWidth n).setWidth 32 := by
  ext i hi
  have hiff : k + i < 32 ↔ i < n := by omega
  simp [hiff, show ¬ k + i < k by omega]

theorem ofInt_bmod (v : Int) : BitVec.ofInt 32 (v.bmod 0x100000000) = BitVec.ofInt 32 v := by
  apply BitVec.eq_of_toInt_eq
  rw [BitVec.toInt_ofInt, BitVec.toInt_ofInt]
  exact Int.bmod_bmod

/-- The words of a 64-bit constant are its low and its high half. -/
theorem longWords_ofInt (v : Int) :
    longWords (BitVec.ofInt 64 v) = [BitVec.ofInt 32 v, BitVec.ofInt 32 (v / 0x100000000)] := by
  have hlow : (BitVec.ofInt 64 v).setWidth 32 = BitVec.ofInt 32 v := by
    apply BitVec.eq_of_toNat_eq
    rw [BitVec.toNat_setWidth, BitVec.toNat_ofInt, BitVec.toNat_ofInt]
    omega
  have hhigh : ((BitVec.ofInt 64 v) >>> 32).setWidth 32 = BitVec.ofInt 32 (v / 0x100000000) := by
    apply BitVec.eq_of_toNat_eq
    rw [BitVec.toNat_setWidth, BitVec.toNat_ushiftRight, BitVec.toNat_ofInt, BitVec.toNat_ofInt,
      Nat.shiftRight_eq_div_pow]
    omega
  rw [longWords, hlow, hhigh]

end JvmAot
