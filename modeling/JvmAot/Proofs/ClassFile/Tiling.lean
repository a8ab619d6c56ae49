import Mathlib.Data.List.Induction
import JvmAot.Proofs.ClassFile.Encoding
import JvmAot.Proofs.ClassFile.PoolTable

/-! # Bytecode is read as the instructions it encodes

`Bytecode.decode_tiles`: decoding accepts exactly the bytes that the format writes for some instructions, one behind the
other from the first byte to the last, and yields these instructions. It counts the places of instructions, and with
them the targets of branches, from behind the opcode byte (`Instruction.late`), not from the opcode byte as the format
does: the first instruction of a method stands at 1. -/

namespace JvmAot

/-! ### Numbers -/

theorem Cursor.bigEndian_lt (bytes : List UInt8) : bigEndian bytes < capacity bytes.length := by
  induction bytes using List.reverseRecOn with
  | nil => exact Nat.one_pos
  | append_singleton bytes b ih =>
    have hb := b.toNat_lt
    rw [bigEndian_concat, List.length_append, List.length_singleton, capacity]
    omega

theorem numberBytes_bigEndian (bytes : List UInt8) : numberBytes bytes.length (Cursor.bigEndian bytes) = bytes := by
  induction bytes using List.reverseRecOn with
  | nil => rfl
  | append_singleton bytes b ih =>
    have hb := b.toNat_lt
    have hrest : (Cursor.bigEndian bytes * 256 + b.toNat) / 256 = Cursor.bigEndian bytes := by omega
    have hlast : UInt8.ofNat (Cursor.bigEndian bytes * 256 + b.toNat) = b := by
      apply UInt8.toNat_inj.1
      rw [UInt8.toNat_ofNat']
      omega
    rw [Cursor.bigEndian_concat, List.length_append, List.length_singleton, numberBytes, hrest, hlast, ih]

theorem exists_wordBytes {bytes : List UInt8} (h : bytes.length = 2) :
    ∃ n : UInt16, bytes = wordBytes n ∧ Cursor.bigEndian bytes = n.toNat := by
  have hlt := Cursor.bigEndian_lt bytes
  rw [h] at hlt
  have hnat : (UInt16.ofNat (Cursor.bigEndian bytes)).toNat = Cursor.bigEndian bytes := UInt16.toNat_ofNat_of_lt hlt
  refine ⟨.ofNat (Cursor.bigEndian bytes), ?_, hnat.symm⟩
  rw [wordBytes, hnat, ← h, numberBytes_bigEndian]

theorem exists_longBytes {bytes : List UInt8} (h : bytes.length = 4) :
    ∃ n : UInt32, bytes = longBytes n ∧ Cursor.bigEndian bytes = n.toNat := by
  have hlt := Cursor.bigEndian_lt bytes
  rw [h] at hlt
  have hnat : (UInt32.ofNat (Cursor.bigEndian bytes)).toNat = Cursor.bigEndian bytes := UInt32.toNat_ofNat_of_lt hlt
  refine ⟨.ofNat (Cursor.bigEndian bytes), ?_, hnat.symm⟩
  rw [longBytes, hnat, ← h, numberBytes_bigEndian]

namespace Cursor

theorem signed_byte (n : UInt8) : signed 8 n.toNat = n.toInt8.toInt :=
  (BitVec.toInt_eq_toNat_bmod _).symm

theorem signed_word (n : UInt16) : signed 16 n.toNat = n.toInt16.toInt :=
  (BitVec.toInt_eq_toNat_bmod _).symm

theorem signed_long (n : UInt32) : signed 32 n.toNat = n.toInt32.toInt :=
  (BitVec.toInt_eq_toNat_bmod _).symm

end Cursor

namespace Reading
variable {β : Type} {f : Nat → Reading β} {position : Nat} {bytes : List UInt8} {b : β}

theorem takes_u2 (n : UInt16) : Takes u2 position (wordBytes n) n.toNat := by
  have h : Takes u2 position (wordBytes n) (Cursor.bigEndian (wordBytes n)) := takes_number (length_numberBytes ..)
  rwa [wordBytes, bigEndian_numberBytes n.toNat_lt] at h

theorem takes_u4 (n : UInt32) : Takes u4 position (longBytes n) n.toNat := by
  have h : Takes u4 position (longBytes n) (Cursor.bigEndian (longBytes n)) := takes_number (length_numberBytes ..)
  rwa [longBytes, bigEndian_numberBytes n.toNat_lt] at h

theorem Takes.of_u1 (h : Takes (u1 >>= f) position bytes b) (hf : ∀ n, Delimits (f n)) :
    ∃ (n : UInt8) (rest : List UInt8), bytes = n :: rest ∧ Takes (f n.toNat) (position + 1) rest b := by
  obtain ⟨first, _, rest, rfl, hr, hf⟩ := (takes_bind_iff (delimits_number 1) hf).1 h
  obtain ⟨hlength, rfl⟩ := takes_number_iff.1 hr
  obtain ⟨n, rfl⟩ := List.length_eq_one_iff.1 hlength
  rw [show Cursor.bigEndian [n] = n.toNat by simp [Cursor.bigEndian]] at hf
  exact ⟨n, rest, rfl, hf⟩

theorem Takes.of_u2 (h : Takes (u2 >>= f) position bytes b) (hf : ∀ n, Delimits (f n)) :
    ∃ (n : UInt16) (rest : List UInt8), bytes = wordBytes n ++ rest ∧ Takes (f n.toNat) (position + 2) rest b := by
  obtain ⟨first, _, rest, rfl, hr, hf⟩ := (takes_bind_iff (delimits_number 2) hf).1 h
  obtain ⟨hlength, rfl⟩ := takes_number_iff.1 hr
  obtain ⟨n, rfl, hn⟩ := exists_wordBytes hlength
  rw [hlength, hn] at hf
  exact ⟨n, rest, rfl, hf⟩

theorem Takes.of_u4 (h : Takes (u4 >>= f) position bytes b) (hf : ∀ n, Delimits (f n)) :
    ∃ (n : UInt32) (rest : List UInt8), bytes = longBytes n ++ rest ∧ Takes (f n.toNat) (position + 4) rest b := by
  obtain ⟨first, _, rest, rfl, hr, hf⟩ := (takes_bind_iff (delimits_number 4) hf).1 h
  obtain ⟨hlength, rfl⟩ := takes_number_iff.1 hr
  obtain ⟨n, rfl, hn⟩ := exists_longBytes hlength
  rw [hlength, hn] at hf
  exact ⟨n, rest, rfl, hf⟩

section Last
variable {g : Nat → β}

theorem Takes.of_last_u1 (h : Takes (u1 >>= fun n => pure (g n)) position bytes b) :
    ∃ n : UInt8, bytes = [n] ∧ b = g n.toNat := by
  obtain ⟨n, rest, rfl, hpure⟩ := h.of_u1 fun _ => delimits_pure _
  obtain ⟨rfl, rfl⟩ := takes_pure_iff.1 hpure
  exact ⟨n, rfl, rfl⟩

theorem Takes.of_last_u2 (h : Takes (u2 >>= fun n => pure (g n)) position bytes b) :
    ∃ n : UInt16, bytes = wordBytes n ∧ b = g n.toNat := by
  obtain ⟨n, rest, rfl, hpure⟩ := h.of_u2 fun _ => delimits_pure _
  obtain ⟨rfl, rfl⟩ := takes_pure_iff.1 hpure
  exact ⟨n, List.append_nil _, rfl⟩

theorem Takes.of_last_u4 (h : Takes (u4 >>= fun n => pure (g n)) position bytes b) :
    ∃ n : UInt32, bytes = longBytes n ∧ b = g n.toNat := by
  obtain ⟨n, rest, rfl, hpure⟩ := h.of_u4 fun _ => delimits_pure _
  obtain ⟨rfl, rfl⟩ := takes_pure_iff.1 hpure
  exact ⟨n, List.append_nil _, rfl⟩

end Last

end Reading

/-! ### Opcodes -/

namespace Opcode

theorem toList_table : table.toList = numbered := by
  decide +kernel

theorem ofByte_eq (byte : UInt8) : ofByte byte = (numbered[byte.toNat]?).getD (reserved byte) := by
  rw [ofByte, ← toList_table, Array.getElem?_toList]

theorem ofByte_of_numbered {op : Opcode} {byte : UInt8} (h : numbered[byte.toNat]? = some op) : ofByte byte = op := by
  rw [ofByte_eq, h, Option.getD_some]

theorem numbered_of_ofByte {op : Opcode} {byte : UInt8} (h : ofByte byte = op) (hop : op ≠ reserved byte) :
    numbered[byte.toNat]? = some op := by
  rw [ofByte_eq] at h
  cases hnumbered : numbered[byte.toNat]? with
  | none =>
    rw [hnumbered, Option.getD_none] at h
    exact absurd h.symm hop
  | some op' =>
    rw [hnumbered, Option.getD_some] at h
    rw [h]

end Opcode

/-- The instruction with its place, and the targets of branches, counted from behind its opcode byte. -/
def Instruction.late (i : Instruction) : Instruction :=
  { i with
    offset := i.offset + 1
    target := if i.opcode.isBranch then i.target + 1 else i.target
    switchTargets := i.switchTargets.map (· + 1) }

/-! ### Operands -/

namespace Bytecode
open Reading
variable {pool : Pool} {position : Nat} {op : Opcode} {bytes : List UInt8} {i : Instruction}

theorem pads_iff : Pads position bytes ↔ bytes.length = (4 - (position + 1) % 4) % 4 := by
  unfold Pads
  omega

theorem takes_align (h : bytes.length = (4 - position % 4) % 4) : Takes align position bytes () := by
  intro rest
  exact congrArg (fun r => ((), r.2)) (takes_take h rest)

theorem delimits_align : Delimits align := by
  rintro ⟨rest, position, marked⟩ hopen
  obtain ⟨rfl, hlength, hrest⟩ := take_of_open hopen
  exact ⟨_, _, (), congrArg (Cursor.mk · position false) hrest, takes_align hlength⟩

theorem pads_of_takes (h : Takes align (position + 1) bytes ()) : Pads position bytes :=
  pads_iff.2 (h.length_eq fun _ => rfl)

theorem delimits_readTargets (offset : Int) (skip count : Nat) (targets : List Int) :
    Delimits (readTargets offset skip count targets) := by
  induction count generalizing targets with
  | zero => exact delimits_pure _
  | succ count ih =>
    refine (delimits_take skip).bind fun _ => (delimits_number 4).bind fun _ => delimits_isExhausted.bind fun b => ?_
    cases b with
    | true => exact delimits_pure _
    | false => exact ih _

theorem takes_readTargets {κ : Type} (key : κ → List UInt8) {skip : Nat} (hkey : ∀ k, (key k).length = skip)
    (position : Nat) (offset : Int) (cases : List (κ × UInt32)) (before : List Int) :
    Takes (readTargets offset skip cases.length before) position (cases.flatMap fun c => key c.1 ++ longBytes c.2)
      (before.reverse ++ cases.map fun c => offset + c.2.toInt32.toInt) := by
  induction cases generalizing position before with
  | nil =>
    rw [List.map_nil, List.append_nil]
    exact takes_pure _
  | cons c cases ih =>
    have htarget := ih (position + (key c.1).length + (longBytes c.2).length)
      ((offset + Cursor.signed 32 c.2.toNat) :: before)
    rw [List.reverse_cons, List.append_assoc, List.singleton_append, Cursor.signed_long] at htarget
    rw [List.flatMap_cons, List.append_assoc]
    refine (takes_take (hkey c.1)).bind ((takes_u4 c.2).bind ?_)
    rw [Cursor.signed_long]
    exact takes_isExhausted.bind htarget

theorem cases_of_takes {κ : Type} (key : κ → List UInt8) {skip : Nat}
    (hkey : ∀ bytes : List UInt8, bytes.length = skip → ∃ k, bytes = key k) {offset : Int} {count : Nat}
    {before targets : List Int} (h : Takes (readTargets offset skip count before) position bytes targets) :
    ∃ cases : List (κ × UInt32), cases.length = count ∧ bytes = (cases.flatMap fun c => key c.1 ++ longBytes c.2) ∧
      targets = before.reverse ++ cases.map fun c => offset + c.2.toInt32.toInt := by
  induction count generalizing position bytes before with
  | zero =>
    obtain ⟨rfl, rfl⟩ := takes_pure_iff.1 h
    exact ⟨[], rfl, rfl, (List.append_nil _).symm⟩
  | succ count ih =>
    have hrest (target : Int) : Delimits (isExhausted >>= fun b =>
        if b then pure before.reverse else readTargets offset skip count (target :: before)) := by
      refine delimits_isExhausted.bind fun b => ?_
      cases b with
      | true => exact delimits_pure _
      | false => exact delimits_readTargets _ _ _ _
    obtain ⟨first, _, second, rfl, hfirst, h₁⟩ := (takes_bind_iff (delimits_take skip)
      fun _ => (delimits_number 4).bind fun _ => hrest _).1 h
    obtain ⟨n, rest, rfl, h₂⟩ := Takes.of_u4 h₁ fun _ => hrest _
    -- The mark is not set here, so that the other cases follow.
    have h₃ : Takes (readTargets offset skip count ((offset + Cursor.signed 32 n.toNat) :: before)) _ rest targets := h₂
    obtain ⟨cases, rfl, rfl, rfl⟩ := ih h₃
    obtain ⟨k, rfl⟩ := hkey first (hfirst.length_eq fun _ => rfl)
    refine ⟨(k, n) :: cases, rfl, ?_, ?_⟩
    · rw [List.flatMap_cons, List.append_assoc]
    · rw [List.reverse_cons, List.append_assoc, Cursor.signed_long]
      rfl

/-- Without keys, the cases are distances one behind the other. -/
theorem takes_distances (offset : Int) (distances : List UInt32) :
    Takes (readTargets offset 0 distances.length []) position (distances.flatMap longBytes)
      (distances.map fun d => offset + d.toInt32.toInt) := by
  have h := takes_readTargets (fun _ : Unit => []) (fun _ => rfl) position offset
    (distances.map fun d => ((), d)) []
  simpa [List.flatMap_map, Function.comp_def] using h

theorem distances_of_takes {offset : Int} {count : Nat} {targets : List Int}
    (h : Takes (readTargets offset 0 count []) position bytes targets) :
    ∃ distances : List UInt32, distances.length = count ∧ bytes = distances.flatMap longBytes ∧
      targets = distances.map fun d => offset + d.toInt32.toInt := by
  obtain ⟨cases, rfl, rfl, rfl⟩ := cases_of_takes (fun _ : Unit => [])
    (fun bytes hbytes => ⟨(), List.eq_nil_of_length_eq_zero hbytes⟩) h
  exact ⟨cases.map Prod.snd, List.length_map .., by simp [List.flatMap_map], by simp [Function.comp_def]⟩

theorem readOperands_of_isBare (pool : Pool) (offset : Int) (h : op.isBare) :
    readOperands pool offset op = pure { instruction := { offset, opcode := op } } := by
  cases op with
  | bipush | sipush | ldc | ldcW | ldc2W | load _ | loadShort _ _ | store _ | storeShort _ _ | iinc | ifZero _ | ifInt _
  | ifSame | ifNotSame | goto | jsr | ret | tableswitch | lookupswitch | getstatic | putstatic | getfield | putfield
  | invokevirtual | invokespecial | invokestatic | invokeinterface | invokedynamic | new | newarray | anewarray
  | checkcast | instanceof | wide | multianewarray | ifnull | ifnonnull | gotoW | jsrW | reserved _ => cases h
  | _ => rfl

theorem withConstant_of_ok {slot : Nat} {c : Constant} (h : pool.constant slot = .ok c) (i : Instruction) :
    withConstant i (pool.constant slot) = { instruction := { i with constant := some c } } := by
  rw [h]
  rfl

theorem late_of_isBare (h : op.isBare) (offset : Int) :
    ({ offset, opcode := op } : Instruction).late = { offset := offset + 1, opcode := op } := by
  cases op with
  | ifZero _ | ifInt _ | ifSame | ifNotSame | goto | jsr | tableswitch | lookupswitch | ifnull | ifnonnull => cases h
  | _ => rfl

/-- What the format writes behind an opcode is read as such, on the scale of decoding. -/
theorem takes_of_operands (h : Operands pool position op bytes i) :
    Takes (readOperands pool (position + 1) op) (position + 1) bytes { instruction := i.late } := by
  have hdistance (d : Int) : (position : Int) + 1 + d = position + d + 1 := Int.add_right_comm ..
  cases h with
  | bare h =>
    rw [readOperands_of_isBare pool _ h, late_of_isBare h]
    exact takes_pure _
  | loadShort kind index | storeShort kind index => exact takes_pure _
  | byteLocal h index =>
    cases op with
    | load _ | store _ | ret => exact (takes_u1 index).bind_pure rfl
    | _ => cases h
  | @wideLocal op h byte hbyte index =>
    rw [← List.append_nil (wordBytes index)]
    refine (takes_u1 byte).bind ((takes_u2 index).bind ?_)
    rw [UInt8.ofNat_toNat, Opcode.ofByte_of_numbered hbyte]
    cases op with
    | load _ | store _ | ret => exact takes_pure _
    | _ => cases h
  | bipush value => exact (takes_u1 value).bind_pure (by rw [Cursor.signed_byte]; rfl)
  | sipush value => exact (takes_u2 value).bind_pure (by rw [Cursor.signed_word]; rfl)
  | newarray element => exact (takes_u1 element).bind_pure rfl
  | iinc index increment =>
    exact (takes_u1 index).bind ((takes_u1 increment).bind_pure (by rw [Cursor.signed_byte]; rfl))
  | @wideIinc byte hbyte index increment =>
    refine (takes_u1 byte).bind ((takes_u2 index).bind ?_)
    rw [UInt8.ofNat_toNat, Opcode.ofByte_of_numbered hbyte]
    exact (takes_u2 increment).bind_pure (by rw [Cursor.signed_word]; rfl)
  | @ldc slot c hc => exact (takes_u1 slot).bind_pure (withConstant_of_ok hc _)
  | @ldcW slot c hc | @ldc2W slot c hc => exact (takes_u2 slot).bind_pure (withConstant_of_ok hc _)
  | @slot _ h slot c hc =>
    cases op with
    | getstatic | putstatic | getfield | putfield | invokevirtual | invokespecial | invokestatic | new | anewarray
    | checkcast | instanceof => exact (takes_u2 slot).bind_pure (withConstant_of_ok hc _)
    | _ => cases h
  | @dynamic _ h slot c hc ignored =>
    obtain rfl | rfl := h
    all_goals exact (takes_u2 slot).bind ((takes_u2 ignored).bind_pure (withConstant_of_ok hc _))
  | @multianewarray slot c hc dimensions =>
    exact (takes_u2 slot).bind ((takes_u1 dimensions).bind_pure (withConstant_of_ok hc _))
  | branch h distance =>
    cases op with
    | ifZero _ | ifInt _ | ifSame | ifNotSame | goto | jsr | ifnull | ifnonnull =>
      exact (takes_u2 distance).bind_pure (by rw [Cursor.signed_word, hdistance]; rfl)
    | _ => cases h
  | gotoW distance | jsrW distance =>
    exact (takes_u4 distance).bind_pure (by rw [Cursor.signed_long, hdistance]; rfl)
  | @tableswitch padding hpadding otherwise low high distances hcount =>
    refine (takes_align (pads_iff.1 hpadding)).bind ((takes_u4 otherwise).bind ((takes_u4 low).bind
      ((takes_u4 high).bind ?_)))
    simp only [Cursor.signed_long]
    rw [← hcount]
    refine (takes_distances _ distances).bind_pure ?_
    simp [Instruction.late, Opcode.isBranch, hdistance]
  | @lookupswitch padding hpadding otherwise count cases hcount =>
    refine (takes_align (pads_iff.1 hpadding)).bind ((takes_u4 otherwise).bind ((takes_u4 count).bind ?_))
    simp only [Cursor.signed_long]
    rw [← hcount]
    refine (takes_readTargets longBytes (fun _ => length_numberBytes ..) _ _ cases []).bind_pure ?_
    simp [Instruction.late, Opcode.isBranch, hdistance]

theorem ok_of_withConstant {i' : Instruction} {r : Except Failure Constant}
    (h : { instruction := i } = withConstant i' r) : ∃ c, r = .ok c ∧ i = { i' with constant := some c } := by
  cases r with
  | error => cases h
  | ok c =>
    cases h
    exact ⟨c, rfl, rfl⟩

/-- What is read behind the opcode that `wide` extends and its local. -/
def readWide (offset : Int) (byte : UInt8) (index : Nat) : Reading DecodedInstruction := do
  let wide : Instruction := { offset, opcode := .ofByte byte, operand := index }
  match wide.opcode with
  | .iinc => return { instruction := { wide with increment := Cursor.signed 16 (← u2) } }
  | .load _ | .store _ | .ret => return { instruction := wide }
  | _ => return { instruction := wide, refusal := some (Cause.invalidWide byte.toNat : Failure) }

theorem readOperands_wide (pool : Pool) (offset : Int) : readOperands pool offset .wide =
    (u1 >>= fun n => u2 >>= fun index => readWide offset (UInt8.ofNat n) index) := by
  refine bind_congr fun n => bind_congr fun index => ?_
  unfold readWide
  generalize Opcode.ofByte (UInt8.ofNat n) = op
  cases op <;> rfl

theorem delimits_readWide (offset : Int) (byte : UInt8) (index : Nat) : Delimits (readWide offset byte index) := by
  unfold readWide
  dsimp only
  split
  · exact (delimits_number 2).bind fun _ => delimits_pure _
  all_goals exact delimits_pure _

theorem delimits_readOperands (pool : Pool) (offset : Int) (op : Opcode) : Delimits (readOperands pool offset op) := by
  have hu (count : Nat) {f : Nat → Reading DecodedInstruction} (hf : ∀ n, Delimits (f n)) :
      Delimits (number count >>= f) := (delimits_number count).bind hf
  cases op with
  | load _ | store _ | ret | newarray | bipush | ldc => exact hu 1 fun _ => delimits_pure _
  | iinc => exact hu 1 fun _ => hu 1 fun _ => delimits_pure _
  | sipush | ifZero _ | ifInt _ | ifSame | ifNotSame | goto | jsr | ifnull | ifnonnull | ldcW | ldc2W | getstatic
  | putstatic | getfield | putfield | invokevirtual | invokespecial | invokestatic | new | anewarray | checkcast
  | instanceof => exact hu 2 fun _ => delimits_pure _
  | gotoW | jsrW => exact hu 4 fun _ => delimits_pure _
  | tableswitch =>
    exact delimits_align.bind fun _ => hu 4 fun _ => hu 4 fun _ => hu 4 fun _ =>
      (delimits_readTargets _ _ _ _).bind fun _ => delimits_pure _
  | lookupswitch =>
    exact delimits_align.bind fun _ => hu 4 fun _ => hu 4 fun _ =>
      (delimits_readTargets _ _ _ _).bind fun _ => delimits_pure _
  | invokeinterface | invokedynamic => exact hu 2 fun _ => hu 2 fun _ => delimits_pure _
  | multianewarray => exact hu 2 fun _ => hu 1 fun _ => delimits_pure _
  | wide =>
    rw [readOperands_wide]
    exact hu 1 fun _ => hu 2 fun _ => delimits_readWide _ _ _
  | _ => exact delimits_pure _

theorem operands_of_readWide {byte : UInt8} {index : UInt16} {place : Nat}
    (h : Takes (readWide (position + 1) byte index.toNat) place bytes { instruction := i }) :
    ∃ j, Operands pool position .wide (byte :: (wordBytes index ++ bytes)) j ∧ i = j.late := by
  unfold readWide at h
  dsimp only at h
  split at h
  · rename_i hop
    obtain ⟨increment, rfl, hi⟩ := Takes.of_last_u2 h
    cases hi
    refine ⟨_, .wideIinc (Opcode.numbered_of_ofByte hop (by simp)) index increment, ?_⟩
    rw [Cursor.signed_word, hop]
    rfl
  case h_5 =>
    obtain ⟨-, hi⟩ := takes_pure_iff.1 h
    cases hi
  all_goals
    rename_i hop
    obtain ⟨rfl, hi⟩ := takes_pure_iff.1 h
    cases hi
    rw [hop, List.append_nil]
    exact ⟨_, .wideLocal rfl (Opcode.numbered_of_ofByte hop (by simp)) index, rfl⟩

theorem operands_of_tableswitch
    (h : Takes (readOperands pool (position + 1) .tableswitch) (position + 1) bytes { instruction := i }) :
    ∃ j, Operands pool position .tableswitch bytes j ∧ i = j.late := by
  have hdistance (d : Int) : (position : Int) + 1 + d = position + d + 1 := Int.add_right_comm ..
  have hlast (count : Nat) {g : List Int → DecodedInstruction} :
      Delimits (readTargets (position + 1) 0 count [] >>= fun targets => pure (g targets)) :=
    (delimits_readTargets _ _ _ _).bind fun _ => delimits_pure _
  obtain ⟨padding, _, rest₁, rfl, hpadding, h₁⟩ := (takes_bind_iff delimits_align fun _ =>
    (delimits_number 4).bind fun _ => (delimits_number 4).bind fun _ => (delimits_number 4).bind fun _ => hlast _).1 h
  obtain ⟨otherwise, rest₂, rfl, h₂⟩ := Takes.of_u4 h₁ fun _ =>
    (delimits_number 4).bind fun _ => (delimits_number 4).bind fun _ => hlast _
  obtain ⟨low, rest₃, rfl, h₃⟩ := Takes.of_u4 h₂ fun _ => (delimits_number 4).bind fun _ => hlast _
  obtain ⟨high, rest₄, rfl, h₄⟩ := Takes.of_u4 h₃ fun _ => hlast _
  obtain ⟨_, targets, _, rfl, htargets, h₅⟩ :=
    (takes_bind_iff (delimits_readTargets _ _ _ _) fun _ => delimits_pure _).1 h₄
  obtain ⟨rfl, hi⟩ := takes_pure_iff.1 h₅
  cases hi
  obtain ⟨distances, hcount, rfl, rfl⟩ := distances_of_takes htargets
  simp only [Cursor.signed_long, List.append_nil, hdistance] at hcount ⊢
  exact ⟨_, .tableswitch (pads_of_takes hpadding) otherwise low high hcount,
    by simp [Instruction.late, Opcode.isBranch]⟩

theorem operands_of_lookupswitch
    (h : Takes (readOperands pool (position + 1) .lookupswitch) (position + 1) bytes { instruction := i }) :
    ∃ j, Operands pool position .lookupswitch bytes j ∧ i = j.late := by
  have hdistance (d : Int) : (position : Int) + 1 + d = position + d + 1 := Int.add_right_comm ..
  have hlast (count : Nat) {g : List Int → DecodedInstruction} :
      Delimits (readTargets (position + 1) 4 count [] >>= fun targets => pure (g targets)) :=
    (delimits_readTargets _ _ _ _).bind fun _ => delimits_pure _
  obtain ⟨padding, _, rest₁, rfl, hpadding, h₁⟩ := (takes_bind_iff delimits_align fun _ =>
    (delimits_number 4).bind fun _ => (delimits_number 4).bind fun _ => hlast _).1 h
  obtain ⟨otherwise, rest₂, rfl, h₂⟩ := Takes.of_u4 h₁ fun _ => (delimits_number 4).bind fun _ => hlast _
  obtain ⟨count, rest₃, rfl, h₃⟩ := Takes.of_u4 h₂ fun _ => hlast _
  obtain ⟨_, targets, _, rfl, htargets, h₄⟩ :=
    (takes_bind_iff (delimits_readTargets _ _ _ _) fun _ => delimits_pure _).1 h₃
  obtain ⟨rfl, hi⟩ := takes_pure_iff.1 h₄
  cases hi
  obtain ⟨cases, hcount, rfl, rfl⟩ := cases_of_takes longBytes
    (fun bytes hbytes => (exists_longBytes hbytes).imp fun _ h => h.1) htargets
  simp only [Cursor.signed_long, List.append_nil, hdistance] at hcount ⊢
  exact ⟨_, .lookupswitch (pads_of_takes hpadding) otherwise count hcount,
    by simp [Instruction.late, Opcode.isBranch]⟩

/-- What is read behind an opcode without being refused is what the format writes there. -/
theorem operands_of_takes
    (h : Takes (readOperands pool (position + 1) op) (position + 1) bytes { instruction := i }) :
    ∃ j, Operands pool position op bytes j ∧ i = j.late := by
  have hdistance (d : Int) : (position : Int) + 1 + d = position + d + 1 := Int.add_right_comm ..
  cases op with
  | loadShort kind index =>
    obtain ⟨rfl, hi⟩ := takes_pure_iff.1 h
    cases hi
    exact ⟨_, .loadShort kind index, rfl⟩
  | storeShort kind index =>
    obtain ⟨rfl, hi⟩ := takes_pure_iff.1 h
    cases hi
    exact ⟨_, .storeShort kind index, rfl⟩
  | load _ | store _ | ret =>
    obtain ⟨n, rfl, hi⟩ := Takes.of_last_u1 h
    cases hi
    exact ⟨_, .byteLocal rfl n, rfl⟩
  | newarray =>
    obtain ⟨n, rfl, hi⟩ := Takes.of_last_u1 h
    cases hi
    exact ⟨_, .newarray n, rfl⟩
  | bipush =>
    obtain ⟨n, rfl, hi⟩ := Takes.of_last_u1 h
    cases hi
    exact ⟨_, .bipush n, by rw [Cursor.signed_byte]; rfl⟩
  | sipush =>
    obtain ⟨n, rfl, hi⟩ := Takes.of_last_u2 h
    cases hi
    exact ⟨_, .sipush n, by rw [Cursor.signed_word]; rfl⟩
  | ldc =>
    obtain ⟨slot, rfl, hi⟩ := Takes.of_last_u1 h
    obtain ⟨c, hc, rfl⟩ := ok_of_withConstant hi
    exact ⟨_, .ldc hc, rfl⟩
  | ldcW =>
    obtain ⟨slot, rfl, hi⟩ := Takes.of_last_u2 h
    obtain ⟨c, hc, rfl⟩ := ok_of_withConstant hi
    exact ⟨_, .ldcW hc, rfl⟩
  | ldc2W =>
    obtain ⟨slot, rfl, hi⟩ := Takes.of_last_u2 h
    obtain ⟨c, hc, rfl⟩ := ok_of_withConstant hi
    exact ⟨_, .ldc2W hc, rfl⟩
  | iinc =>
    obtain ⟨index, rest, rfl, h₁⟩ := Takes.of_u1 h fun _ => (delimits_number 1).bind fun _ => delimits_pure _
    obtain ⟨increment, rfl, h₂⟩ := Takes.of_last_u1 h₁
    cases h₂
    exact ⟨_, .iinc index increment, by rw [Cursor.signed_byte]; rfl⟩
  | ifZero _ | ifInt _ | ifSame | ifNotSame | goto | jsr | ifnull | ifnonnull =>
    obtain ⟨n, rfl, hi⟩ := Takes.of_last_u2 h
    cases hi
    exact ⟨_, .branch rfl n, by rw [Cursor.signed_word, hdistance]; rfl⟩
  | gotoW =>
    obtain ⟨n, rfl, hi⟩ := Takes.of_last_u4 h
    cases hi
    exact ⟨_, .gotoW n, by rw [Cursor.signed_long, hdistance]; rfl⟩
  | jsrW =>
    obtain ⟨n, rfl, hi⟩ := Takes.of_last_u4 h
    cases hi
    exact ⟨_, .jsrW n, by rw [Cursor.signed_long, hdistance]; rfl⟩
  | tableswitch => exact operands_of_tableswitch h
  | lookupswitch => exact operands_of_lookupswitch h
  | getstatic | putstatic | getfield | putfield | invokevirtual | invokespecial | invokestatic | new | anewarray
  | checkcast | instanceof =>
    obtain ⟨slot, rfl, hi⟩ := Takes.of_last_u2 h
    obtain ⟨c, hc, rfl⟩ := ok_of_withConstant hi
    exact ⟨_, .slot rfl hc, rfl⟩
  | invokeinterface =>
    obtain ⟨slot, rest, rfl, h₁⟩ := Takes.of_u2 h fun _ => (delimits_number 2).bind fun _ => delimits_pure _
    obtain ⟨ignored, rfl, h₂⟩ := Takes.of_last_u2 h₁
    obtain ⟨c, hc, rfl⟩ := ok_of_withConstant h₂
    exact ⟨_, .dynamic (.inl rfl) hc ignored, rfl⟩
  | invokedynamic =>
    obtain ⟨slot, rest, rfl, h₁⟩ := Takes.of_u2 h fun _ => (delimits_number 2).bind fun _ => delimits_pure _
    obtain ⟨ignored, rfl, h₂⟩ := Takes.of_last_u2 h₁
    obtain ⟨c, hc, rfl⟩ := ok_of_withConstant h₂
    exact ⟨_, .dynamic (.inr rfl) hc ignored, rfl⟩
  | multianewarray =>
    obtain ⟨slot, rest, rfl, h₁⟩ := Takes.of_u2 h fun _ => (delimits_number 1).bind fun _ => delimits_pure _
    obtain ⟨dimensions, rfl, h₂⟩ := Takes.of_last_u1 h₁
    obtain ⟨c, hc, rfl⟩ := ok_of_withConstant h₂
    exact ⟨_, .multianewarray hc dimensions, rfl⟩
  | wide =>
    rw [readOperands_wide] at h
    obtain ⟨byte, rest₁, rfl, h₁⟩ := h.of_u1 fun _ => (delimits_number 2).bind fun _ => delimits_readWide _ _ _
    obtain ⟨index, rest₂, rfl, h₂⟩ := h₁.of_u2 fun _ => delimits_readWide _ _ _
    rw [UInt8.ofNat_toNat] at h₂
    exact operands_of_readWide h₂
  | reserved byte =>
    obtain ⟨-, hi⟩ := takes_pure_iff.1 h
    cases hi
  | _ =>
    obtain ⟨rfl, hi⟩ := takes_pure_iff.1 h
    cases hi
    exact ⟨_, .bare rfl, rfl⟩

/-! ### Instructions -/

theorem decodeInstruction_of_read {c c₁ c₂ : Cursor} {n : Nat} (hu : u1 c = (n, c₁))
    (hread : readOperands pool c₁.position (.ofByte (.ofNat n)) c₁ = ({ instruction := i }, c₂))
    (hopen : c₂.isExhausted = false) : decodeInstruction pool c = .ok (i, c₂) := by
  have hend : Decoder.within i.place Decoder.checkEnd c₂ = .ok ((), c₂) := by
    obtain ⟨rest, position, marked⟩ := c₂
    cases hopen
    exact Decoder.reads_checkEnd.within i.place rest position
  have hget : (get : Decoder Cursor) c₁ = .ok (c₁, c₁) := rfl
  rw [decodeInstruction, Decoder.bind_eq_of_ok (Decoder.lift_eq_ok hu), Decoder.bind_eq_of_ok hget]
  dsimp only
  rw [Decoder.bind_eq_of_ok (Decoder.lift_eq_ok hread)]
  exact Decoder.bind_eq_of_ok hend

theorem read_of_decodeInstruction {c c' : Cursor} (h : decodeInstruction pool c = .ok (i, c')) :
    ∃ n c₁, u1 c = (n, c₁) ∧
      readOperands pool c₁.position (.ofByte (.ofNat n)) c₁ = ({ instruction := i }, c') ∧ c'.isExhausted = false := by
  obtain ⟨n, c₁, hu, h⟩ := Decoder.bind_of_ok h
  obtain ⟨_, _, hget, h⟩ := Decoder.bind_of_ok h
  obtain ⟨rfl, rfl⟩ := Decoder.get_of_ok hget
  obtain ⟨⟨i', refusal⟩, c₂, hread, h⟩ := Decoder.bind_of_ok h
  refine ⟨n, c₁, Decoder.lift_of_ok hu, ?_⟩
  cases refusal with
  | some =>
    obtain ⟨_, _, hthrow, -⟩ := Decoder.bind_of_ok h
    cases hthrow
  | none =>
    obtain ⟨_, c₃, hend, h⟩ := Decoder.bind_of_ok h
    obtain ⟨rfl, hopen⟩ := Decoder.checkEnd_of_ok (Decoder.within_of_ok hend)
    cases h
    exact ⟨Decoder.lift_of_ok hread, hopen⟩

theorem decodeInstruction_of_encodes (h : Encodes pool position bytes i) (rest : List UInt8) :
    decodeInstruction pool ⟨bytes ++ rest, position, false⟩ = .ok (i.late, ⟨rest, position + bytes.length, false⟩) := by
  obtain @⟨op, byte, operands, i, hbyte, hi⟩ := h
  have hread := takes_of_operands hi rest
  rw [← Opcode.ofByte_of_numbered hbyte, ← UInt8.ofNat_toNat (x := byte)] at hread
  have hlength : position + (byte :: operands).length = position + 1 + operands.length := by
    rw [List.length_cons, Nat.add_comm operands.length, Nat.add_assoc]
  rw [hlength]
  exact decodeInstruction_of_read (takes_u1 byte (operands ++ rest)) hread rfl

theorem not_operands_reserved {byte : UInt8} : ¬ Operands pool position (.reserved byte) bytes i := by
  intro h
  cases h with
  | bare h | byteLocal h | slot h | branch h => cases h
  | dynamic h => simp at h

theorem encodes_of_decodeInstruction {c c' : Cursor} (h : decodeInstruction pool c = .ok (i, c')) :
    ∃ bytes j, Encodes pool c.position bytes j ∧ i = j.late ∧ c = ⟨bytes ++ c'.rest, c.position, false⟩ ∧
      c' = ⟨c'.rest, c.position + bytes.length, false⟩ := by
  obtain ⟨n, c₁, hu, hread, hopen⟩ := read_of_decodeInstruction h
  obtain ⟨operands, hoperands, hc₁, hc'⟩ := (delimits_readOperands pool _ _).of_run hread hopen
  obtain ⟨first, hfirst, hc, hfollows⟩ := (delimits_number 1).of_run hu (by rw [hc₁])
  obtain ⟨hlength, hn⟩ := takes_number_iff.1 hfirst
  obtain ⟨byte, rfl⟩ := List.length_eq_one_iff.1 hlength
  have hn : UInt8.ofNat n = byte := by
    rw [hn, show Cursor.bigEndian [byte] = byte.toNat by simp [Cursor.bigEndian], UInt8.ofNat_toNat]
  have hposition : c₁.position = c.position + 1 := congrArg Cursor.position hfollows
  rw [hposition, hn] at hoperands
  obtain ⟨j, hj, rfl⟩ := operands_of_takes hoperands
  have hbyte : Opcode.numbered[byte.toNat]? = some (Opcode.ofByte byte) := by
    refine Opcode.numbered_of_ofByte rfl fun hreserved => ?_
    rw [hreserved] at hj
    exact not_operands_reserved hj
  refine ⟨byte :: operands, j, ⟨hbyte, hj⟩, rfl, ?_, ?_⟩
  · rw [hc, hc₁]
    rfl
  · rw [hc', hposition, List.length_cons, Nat.add_comm operands.length, ← Nat.add_assoc]

/-! ### Methods -/

theorem decodeInstructions_succ {c c₁ : Cursor} (hrest : c.rest ≠ []) (hi : decodeInstruction pool c = .ok (i, c₁))
    (fuel : Nat) (before : List Instruction) :
    decodeInstructions pool (fuel + 1) before c = decodeInstructions pool fuel (i :: before) c₁ := by
  have hget : (get : Decoder Cursor) c = .ok (c, c) := rfl
  rw [decodeInstructions, Decoder.bind_eq_of_ok hget, if_neg (by simpa using hrest), Decoder.bind_eq_of_ok hi]

theorem decodeInstructions_of_encoded {is : List Instruction} (h : Encoded pool position bytes is) {fuel : Nat}
    (hfuel : bytes.length ≤ fuel) (before : List Instruction) :
    ∃ c, decodeInstructions pool fuel before ⟨bytes, position, false⟩ =
      .ok (before.reverse ++ is.map Instruction.late, c) := by
  induction h generalizing fuel before with
  | @nil position =>
    refine ⟨⟨[], position, false⟩, ?_⟩
    rw [List.map_nil, List.append_nil]
    cases fuel <;> rfl
  | @cons position bytes rest i is hi hrest ih =>
    have hlength : 0 < bytes.length := by
      cases hi
      exact Nat.succ_pos _
    have hne : bytes ++ rest ≠ [] := List.append_ne_nil_of_left_ne_nil (List.ne_nil_of_length_pos hlength) rest
    rw [List.length_append] at hfuel
    obtain ⟨fuel, rfl⟩ : ∃ n, fuel = n + 1 := ⟨fuel - 1, by omega⟩
    have hrestFuel : rest.length ≤ fuel := by omega
    obtain ⟨c, hc⟩ := ih hrestFuel (i.late :: before)
    refine ⟨c, ?_⟩
    rw [decodeInstructions_succ hne (decodeInstruction_of_encodes hi rest), hc, List.reverse_cons, List.append_assoc]
    rfl

theorem encoded_of_decodeInstructions {is before : List Instruction} {fuel : Nat} {c c' : Cursor}
    (hopen : c.isExhausted = false) (hfuel : c.rest.length ≤ fuel)
    (h : decodeInstructions pool fuel before c = .ok (is, c')) :
    ∃ js, Encoded pool c.position c.rest js ∧ is = before.reverse ++ js.map Instruction.late := by
  induction fuel generalizing before c with
  | zero =>
    have hrest : c.rest = [] := List.eq_nil_of_length_eq_zero (Nat.le_zero.1 hfuel)
    cases h
    exact ⟨[], hrest ▸ .nil, (List.append_nil _).symm⟩
  | succ fuel ih =>
    obtain ⟨_, _, hget, h⟩ := Decoder.bind_of_ok h
    obtain ⟨rfl, rfl⟩ := Decoder.get_of_ok hget
    split at h
    · rename_i hrest
      cases h
      exact ⟨[], List.isEmpty_iff.1 hrest ▸ .nil, (List.append_nil _).symm⟩
    · obtain ⟨i, c₁, hi, h⟩ := Decoder.bind_of_ok h
      obtain ⟨bytes, j, hj, rfl, hc, hc₁⟩ := encodes_of_decodeInstruction hi
      have hbytes : c.rest = bytes ++ c₁.rest := congrArg Cursor.rest hc
      have hposition : c₁.position = c.position + bytes.length := congrArg Cursor.position hc₁
      have hlength : 0 < bytes.length := by
        cases hj
        exact Nat.succ_pos _
      obtain ⟨js, hjs, rfl⟩ := ih (by rw [hc₁]) (by rw [hbytes, List.length_append] at hfuel; omega) h
      rw [hposition] at hjs
      refine ⟨j :: js, hbytes ▸ .cons hj hjs, ?_⟩
      rw [List.reverse_cons, List.append_assoc]
      rfl

theorem encoded_of_decode {is : List Instruction} (h : decode pool bytes = .ok is) :
    ∃ js, Encoded pool 0 bytes js ∧ is = js.map Instruction.late := by
  unfold decode Decoder.decode at h
  cases hrun : decodeInstructions pool bytes.length [] { rest := bytes } with
  | error => rw [hrun] at h; cases h
  | ok r =>
    rw [hrun] at h
    cases h
    exact encoded_of_decodeInstructions (c := { rest := bytes }) rfl (Nat.le_refl _) hrun

/-- Bytecode is accepted exactly if it is written by the format: instructions of which each begins where the one before
it ends, from the first byte to the last. These are what it is read as, with their places counted from behind the opcode
byte. -/
theorem decode_tiles {is : List Instruction} : decode pool bytes = .ok is ↔
    ∃ js, Encoded pool 0 bytes js ∧ is = js.map Instruction.late := by
  constructor
  · exact encoded_of_decode
  · rintro ⟨js, hjs, rfl⟩
    obtain ⟨c, hrun⟩ := decodeInstructions_of_encoded hjs (Nat.le_refl _) []
    rw [decode, Decoder.decode, hrun]
    rfl

/-- A loop around nothing: in the format it stands at 0 and 1 and jumps to 0. It is read as standing at 1 and 2 and
jumping to 1. -/
theorem offsets_of_loop : Encoded ⟨#[]⟩ 0 [0, 167, 255, 255]
      [{ offset := 0, opcode := .nop }, { offset := 1, opcode := .goto, target := 0 }] ∧
    decode ⟨#[]⟩ [0, 167, 255, 255] =
      .ok [{ offset := 1, opcode := .nop }, { offset := 2, opcode := .goto, target := 1 }] := by
  refine ⟨?_, by decide +kernel⟩
  have hnop : Encodes ⟨#[]⟩ 0 [0] { offset := 0, opcode := .nop } := ⟨rfl, .bare rfl⟩
  have hgoto : Encodes ⟨#[]⟩ 1 [167, 255, 255] { offset := 1, opcode := .goto, target := 0 } :=
    ⟨rfl, .branch rfl 65535⟩
  exact .cons hnop (.cons hgoto .nil)

end Bytecode

end JvmAot
