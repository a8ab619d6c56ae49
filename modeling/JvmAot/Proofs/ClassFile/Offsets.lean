import JvmAot.ClassFile.Decode

/-! # Instructions stand one after the other

`ClassFile.increasing_of_decode`: in a class file that can be read, the offsets of the instructions of a method
increase. -/

namespace JvmAot

namespace Reading
variable {α β : Type}

/-- Reading never goes back. -/
def Advances (r : Reading α) : Prop :=
  ∀ c, c.position ≤ (r c).2.position

theorem advances_pure (a : α) : Advances (pure a) :=
  fun _ => Nat.le_refl _

theorem Advances.bind {r : Reading α} {f : α → Reading β} (hr : Advances r) (hf : ∀ a, Advances (f a)) :
    Advances (r >>= f) :=
  fun c => Nat.le_trans (hr c) (hf _ _)

theorem advances_take (count : Nat) : Advances (take count) := by
  intro c
  unfold take
  split
  · exact Nat.le_refl _
  · dsimp only
    split
    · exact Nat.le_add_right ..
    · exact Nat.le_refl _

theorem advances_number (count : Nat) : Advances (number count) :=
  advances_take count

theorem advances_isExhausted : Advances isExhausted :=
  fun _ => Nat.le_refl _

end Reading

namespace Decoder
variable {α β : Type} {c c' : Cursor}

theorem bind_of_ok {d : Decoder α} {f : α → Decoder β} {b : β} (h : (d >>= f) c = .ok (b, c')) :
    ∃ a c₁, d c = .ok (a, c₁) ∧ f a c₁ = .ok (b, c') := by
  rcases hd : d c with failure | ⟨a, c₁⟩
  · simp [bind, StateT.bind, Except.bind, hd] at h
  · exact ⟨a, c₁, rfl, by simpa [bind, StateT.bind, Except.bind, hd] using h⟩

theorem lift_of_ok {r : Reading α} {a : α} (h : (liftM r : Decoder α) c = .ok (a, c')) : r c = (a, c') :=
  Except.ok.inj h

theorem get_of_ok {c₁ : Cursor} (h : (get : Decoder Cursor) c = .ok (c₁, c')) : c = c₁ ∧ c = c' := by
  cases h
  exact ⟨rfl, rfl⟩

theorem within_of_ok {place : String} {d : Decoder α} {a : α} (h : within place d c = .ok (a, c')) :
    d c = .ok (a, c') := by
  unfold within Failure.locate at h
  rcases hd : d c with failure | r
  · rw [hd] at h
    cases h
  · rwa [hd] at h

theorem checkEnd_of_ok {a : Unit} (h : checkEnd c = .ok (a, c')) : c = c' ∧ c.isExhausted = false := by
  obtain ⟨b, c₁, hread, h⟩ := bind_of_ok h
  cases lift_of_ok hread
  cases hopen : c.isExhausted with
  | false =>
    rw [hopen] at h
    cases h
    exact ⟨rfl, rfl⟩
  | true =>
    rw [hopen] at h
    cases h

end Decoder

namespace Bytecode
open Reading
variable {α : Type} {offset : Int}

theorem advances_readTargets (offset : Int) (skip count : Nat) (targets : List Int) :
    Advances (readTargets offset skip count targets) := by
  induction count generalizing targets with
  | zero => exact advances_pure _
  | succ count ih =>
    refine (advances_take skip).bind fun _ => (advances_number 4).bind fun _ => advances_isExhausted.bind fun b => ?_
    cases b with
    | true => exact advances_pure _
    | false => exact ih _

theorem advances_align : Advances align :=
  Advances.bind (fun _ => Nat.le_refl _) fun _ => (advances_take _).bind fun _ => advances_pure _

/-- What is read is an instruction at `offset`, and reading does not go back. -/
def Stands (offset : Int) (r : Reading DecodedInstruction) : Prop :=
  Advances r ∧ ∀ c, (r c).1.instruction.offset = offset

theorem stands_pure {d : DecodedInstruction} (h : d.instruction.offset = offset) : Stands offset (pure d) :=
  ⟨advances_pure d, fun _ => h⟩

theorem Stands.bind {r : Reading α} {f : α → Reading DecodedInstruction} (hr : Advances r)
    (hf : ∀ a, Stands offset (f a)) : Stands offset (r >>= f) :=
  ⟨hr.bind fun a => (hf a).1, fun c => (hf (r c).1).2 (r c).2⟩

theorem offset_withConstant (i : Instruction) (constant : Except Failure Constant) :
    (withConstant i constant).instruction.offset = i.offset := by
  cases constant <;> rfl

theorem stands_readOperands (pool : Pool) (offset : Int) (opcode : Opcode) :
    Stands offset (readOperands pool offset opcode) := by
  have hu (count : Nat) {f : Nat → Reading DecodedInstruction} (hf : ∀ n, Stands offset (f n)) :
      Stands offset (number count >>= f) := .bind (advances_number count) hf
  have hconstant (i : Instruction) (c : Except Failure Constant) (hi : i.offset = offset) :
      Stands offset (pure (withConstant i c)) := stands_pure ((offset_withConstant i c).trans hi)
  cases opcode with
  | load _ | store _ | ret | newarray | bipush => exact hu 1 fun _ => stands_pure rfl
  | ldc => exact hu 1 fun _ => hconstant _ _ rfl
  | iinc => exact hu 1 fun _ => hu 1 fun _ => stands_pure rfl
  | sipush | ifZero _ | ifInt _ | ifSame | ifNotSame | goto | jsr | ifnull | ifnonnull =>
    exact hu 2 fun _ => stands_pure rfl
  | gotoW | jsrW => exact hu 4 fun _ => stands_pure rfl
  | tableswitch =>
    exact .bind advances_align fun _ => hu 4 fun _ => hu 4 fun _ => hu 4 fun _ =>
      .bind (advances_readTargets _ _ _ _) fun _ => stands_pure rfl
  | lookupswitch =>
    exact .bind advances_align fun _ => hu 4 fun _ => hu 4 fun _ =>
      .bind (advances_readTargets _ _ _ _) fun _ => stands_pure rfl
  | ldcW | ldc2W | getstatic | putstatic | getfield | putfield | invokevirtual | invokespecial | invokestatic
  | new | anewarray | checkcast | instanceof => exact hu 2 fun _ => hconstant _ _ rfl
  | invokeinterface | invokedynamic => exact hu 2 fun _ => hu 2 fun _ => hconstant _ _ rfl
  | multianewarray => exact hu 2 fun _ => hu 1 fun _ => hconstant _ _ rfl
  | wide =>
    refine hu 1 fun _ => hu 2 fun _ => ?_
    dsimp only
    split
    · exact hu 2 fun _ => stands_pure rfl
    all_goals exact stands_pure rfl
  | _ => exact stands_pure rfl

theorem position_u1 {c : Cursor} (hrest : c.rest ≠ []) (hopen : c.isExhausted = false) :
    (u1 c).2.position = c.position + 1 := by
  obtain ⟨b, rest, hbytes⟩ := List.exists_cons_of_ne_nil hrest
  change (take 1 c).2.position = c.position + 1
  simp [take, hopen, hbytes]

/-- An instruction stands behind its first byte, and the next one behind its last. -/
theorem decodeInstruction_of_ok {pool : Pool} {c c' : Cursor} {i : Instruction} (hrest : c.rest ≠ [])
    (hopen : c.isExhausted = false) (h : decodeInstruction pool c = .ok (i, c')) :
    (c.position : Int) < i.offset ∧ i.offset ≤ c'.position ∧ c'.isExhausted = false := by
  have hbyte := position_u1 hrest hopen
  obtain ⟨byte, c₁, hu, h⟩ := Decoder.bind_of_ok h
  obtain ⟨_, _, hget, h⟩ := Decoder.bind_of_ok h
  obtain ⟨rfl, rfl⟩ := Decoder.get_of_ok hget
  obtain ⟨d, c₂, hread, h⟩ := Decoder.bind_of_ok h
  rw [Decoder.lift_of_ok hu] at hbyte
  obtain ⟨hadvances, hoffset⟩ := stands_readOperands pool c₁.position (.ofByte (UInt8.ofNat byte))
  have hadvances := hadvances c₁
  have hoffset := hoffset c₁
  rw [Decoder.lift_of_ok hread] at hadvances hoffset
  dsimp only at h hbyte hadvances hoffset
  cases hrefusal : d.refusal with
  | some =>
    rw [hrefusal] at h
    obtain ⟨_, _, hthrow, -⟩ := Decoder.bind_of_ok h
    cases hthrow
  | none =>
    rw [hrefusal] at h
    obtain ⟨_, c₃, hend, h⟩ := Decoder.bind_of_ok h
    obtain ⟨rfl, hopen⟩ := Decoder.checkEnd_of_ok (Decoder.within_of_ok hend)
    cases h
    exact ⟨by omega, by omega, hopen⟩

/-- Instructions stand one after the other. -/
def Increasing (instructions : List Instruction) : Prop :=
  instructions.Pairwise fun i j => i.offset < j.offset

theorem increasing_decodeInstructions {pool : Pool} {fuel : Nat} {before is : List Instruction} {c c' : Cursor}
    (hopen : c.isExhausted = false) (hbefore : Increasing before.reverse) (hend : ∀ i ∈ before, i.offset ≤ c.position)
    (h : decodeInstructions pool fuel before c = .ok (is, c')) : Increasing is := by
  induction fuel generalizing before c with
  | zero => cases h; exact hbefore
  | succ fuel ih =>
    obtain ⟨_, _, hget, h⟩ := Decoder.bind_of_ok h
    obtain ⟨rfl, rfl⟩ := Decoder.get_of_ok hget
    split at h
    · cases h
      exact hbefore
    · rename_i hrest
      obtain ⟨i, c₁, hi, h⟩ := Decoder.bind_of_ok h
      obtain ⟨hlt, hle, hopen'⟩ := decodeInstruction_of_ok (by simpa using hrest) hopen hi
      refine ih hopen' ?_ ?_ h
      · rw [Increasing, List.reverse_cons]
        refine List.pairwise_append.2 ⟨hbefore, List.pairwise_singleton .., fun j hj k hk => ?_⟩
        rw [List.mem_singleton.1 hk]
        exact Int.lt_of_le_of_lt (hend j (List.mem_reverse.1 hj)) hlt
      · refine List.forall_mem_cons.2 ⟨hle, fun j hj => ?_⟩
        exact Int.le_trans (hend j hj) (Int.le_of_lt (Int.lt_of_lt_of_le hlt hle))

theorem increasing_decode {pool : Pool} {bytes : List UInt8} {is : List Instruction}
    (h : decode pool bytes = .ok is) : Increasing is := by
  unfold decode Decoder.decode at h
  cases hd : decodeInstructions pool bytes.length [] { rest := bytes } with
  | error => rw [hd] at h; cases h
  | ok r =>
    rw [hd] at h
    cases h
    refine increasing_decodeInstructions ?_ ?_ ?_ hd
    · rfl
    · exact List.Pairwise.nil
    · simp

end Bytecode

/-! ### Class files -/

namespace Decoder
variable {α β : Type} {P : β → Prop}

/-- What is read has the property `P`. -/
def Yields (P : α → Prop) (d : Decoder α) : Prop :=
  ∀ c a c', d c = .ok (a, c') → P a

theorem yields_pure {b : β} (h : P b) : Yields P (pure b) := by
  intro c a c' heq
  cases heq
  exact h

theorem Yields.bind {Q : α → Prop} {d : Decoder α} {f : α → Decoder β} (hd : Yields Q d)
    (hf : ∀ a, Q a → Yields P (f a)) : Yields P (d >>= f) := by
  intro c b c' h
  obtain ⟨a, c₁, ha, hb⟩ := bind_of_ok h
  exact hf a (hd c a c₁ ha) c₁ b c' hb

/-- What was read before does not matter. -/
theorem yields_bind {d : Decoder α} {f : α → Decoder β} (hf : ∀ a, Yields P (f a)) : Yields P (d >>= f) :=
  Yields.bind (Q := fun _ => True) (fun _ _ _ _ => trivial) fun a _ => hf a

theorem Yields.within {d : Decoder β} (h : Yields P d) (place : String) : Yields P (within place d) :=
  fun _ _ _ heq => h _ _ _ (within_of_ok heq)

theorem yields_ofExcept {r : Except Failure β} (h : ∀ b, r = .ok b → P b) : Yields P (ofExcept r) := by
  intro c b c' heq
  cases r with
  | error => cases heq
  | ok =>
    cases heq
    exact h _ rfl

theorem yields_repeated {count : Nat} {item : Nat → Decoder β} (h : ∀ i, Yields P (item i)) :
    Yields (fun bs : List β => ∀ b ∈ bs, P b) (repeated count item) := by
  unfold repeated
  generalize List.range count = indices
  induction indices with
  | nil => exact yields_pure (by simp)
  | cons i rest ih =>
    rw [List.mapM_cons]
    exact (h i).bind fun b hb => ih.bind fun bs hbs => yields_pure (List.forall_mem_cons.2 ⟨hb, hbs⟩)

theorem decode_of_ok {d : Decoder β} (hd : Yields P d) {bytes : List UInt8} {b : β} (h : d.decode bytes = .ok b) :
    P b := by
  unfold decode at h
  cases heq : d { rest := bytes } with
  | error => rw [heq] at h; cases h
  | ok r =>
    rw [heq] at h
    cases h
    exact hd _ _ _ heq

end Decoder

open Decoder

/-- The instructions of a body stand one after the other. -/
def Code.Increasing (code : Code) : Prop :=
  Bytecode.Increasing code.instructions

/-- The instructions of a body are those of some bytecode. -/
def Code.FromBytecode (code : Code) : Prop :=
  ∃ pool bytes, Bytecode.decode pool bytes = .ok code.instructions

theorem Code.yields_decode (pool : Pool) : Yields Code.FromBytecode (Code.decode pool) := by
  refine yields_bind fun _ => yields_bind fun _ => yields_bind fun _ => yields_bind fun bytes => yields_bind fun _ => ?_
  refine (yields_ofExcept fun is his => his).bind fun is his => ?_
  exact yields_bind fun _ => yields_bind fun _ => yields_bind fun _ => yields_pure ⟨pool, bytes, his⟩

namespace MethodDecl

/-- A method with a body has one whose instructions are those of some bytecode. -/
def FromBytecode (d : MethodDecl) : Prop :=
  ∀ code ∈ d.code, code.FromBytecode

/-- A method with a body has one whose instructions stand one after the other. -/
def Increasing (d : MethodDecl) : Prop :=
  ∀ code ∈ d.code, code.Increasing

theorem yields_decodeAttributes {P : Code → Prop} {pool : Pool} (hP : Yields P (Code.decode pool))
    (name descriptor : String) (count : Nat) {code : Option Code} (hcode : ∀ c ∈ code, P c) :
    Yields (fun code => ∀ c ∈ code, P c) (decodeAttributes pool name descriptor count code) := by
  induction count generalizing code with
  | zero => exact yields_pure hcode
  | succ count ih =>
    refine yields_bind fun _ => yields_bind fun kind => yields_bind fun _ => ?_
    refine yields_bind fun body => yields_bind fun _ => ?_
    split
    · refine ((yields_ofExcept fun c hc => ?_).within _).bind (Q := P) fun c hc => ih (by simpa using hc)
      exact decode_of_ok hP hc
    · exact ih hcode

theorem yields_decode {P : Code → Prop} {pool : Pool} (hP : Yields P (Code.decode pool)) :
    Yields (fun d => ∀ code ∈ d.code, P code) (decode pool) := by
  refine yields_bind fun _ => yields_bind fun _ => yields_bind fun _ => yields_bind fun _ => yields_bind fun _ =>
    yields_bind fun _ => ?_
  exact (yields_decodeAttributes hP _ _ _ (by simp)).bind fun code hcode => yields_pure hcode

end MethodDecl

/-- In a class that was read, the bodies of methods are as decoding them makes sure of. -/
theorem ClassFile.bodies_of_decode {P : Code → Prop} (hP : ∀ pool, Yields P (Code.decode pool)) {bytes : ByteArray}
    {file : ClassFile} (h : decode bytes = .ok file) : ∀ d ∈ file.methods, ∀ code ∈ d.code, P code := by
  refine decode_of_ok (d := decoder) (P := fun file => ∀ d ∈ file.methods, ∀ code ∈ d.code, P code) ?_ h
  refine yields_bind fun magic => ?_
  dsimp only
  split
  · intro c a c' heq
    obtain ⟨_, _, hfail, -⟩ := bind_of_ok heq
    cases hfail
  refine yields_bind fun _ => yields_bind fun _ => yields_bind fun _ => yields_bind fun pool => yields_bind fun _ =>
    yields_bind fun _ => yields_bind fun _ => yields_bind fun _ => yields_bind fun name => yields_bind fun _ =>
    yields_bind fun _ => yields_bind fun _ => yields_bind fun _ => yields_bind fun _ => yields_bind fun _ => ?_
  refine (yields_repeated fun i => (MethodDecl.yields_decode (hP pool)).within _).bind fun methods hmethods => ?_
  exact yields_bind fun _ => yields_pure hmethods

/-- In a class that was read, the instructions of every method are those of some bytecode. -/
theorem ClassFile.fromBytecode_of_decode {bytes : ByteArray} {file : ClassFile} (h : decode bytes = .ok file) :
    ∀ d ∈ file.methods, d.FromBytecode :=
  bodies_of_decode Code.yields_decode h

/-- In a class that was read, the instructions of every method stand one after the other. -/
theorem ClassFile.increasing_of_decode {bytes : ByteArray} {file : ClassFile} (h : decode bytes = .ok file) :
    ∀ d ∈ file.methods, d.Increasing := by
  intro d hd code hcode
  obtain ⟨pool, bytecode, hdecode⟩ := fromBytecode_of_decode h d hd code hcode
  exact Bytecode.increasing_decode hdecode

end JvmAot
