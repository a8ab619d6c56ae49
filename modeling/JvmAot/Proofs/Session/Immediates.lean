import JvmAot.Proofs.ClassFile.Tiling
import JvmAot.Proofs.Lowering.Failures
import JvmAot.Proofs.Lowering.Immediates
import JvmAot.Proofs.Session.CodeStorage

/-! # Which methods can be encoded

`Session.Reached.method_fits_iff`: the code of a method can be encoded exactly if its frame is small enough and each of
its instructions names a local, a field, a slot of a vtable or an element that is near enough (`Session.reach`). Nothing
keeps a class from going beyond that: only increments of locals are looked at before they are written as immediates. -/

namespace JvmAot

/-! ### Bodies as they are decoded -/

/-- The opcodes that access a local. -/
def Opcode.accessesLocal : Opcode → Bool
  | load _ | store _ | iinc => true
  | _ => false

theorem Encodes.operand_nonneg {pool : Pool} {position : Nat} {bytes : List UInt8} {i : Instruction}
    (h : Encodes pool position bytes i) (hlocal : i.opcode.accessesLocal) : 0 ≤ i.operand := by
  obtain ⟨-, h⟩ := h
  cases h with
  | bare => exact Int.le_refl 0
  | bipush | sipush => cases hlocal
  | _ => simp

theorem Encoded.exists_encodes {pool : Pool} {position : Nat} {bytes : List UInt8} {is : List Instruction}
    (h : Encoded pool position bytes is) : ∀ i ∈ is, ∃ position bytes, Encodes pool position bytes i := by
  induction h with
  | nil => exact List.forall_mem_nil _
  | cons hi _ ih => exact List.forall_mem_cons.2 ⟨⟨_, _, hi⟩, ih⟩

/-- No instruction that is decoded accesses a local below the first one. -/
theorem Bytecode.operand_nonneg_of_decode {pool : Pool} {bytes : List UInt8} {is : List Instruction}
    (h : decode pool bytes = .ok is) : ∀ i ∈ is, i.opcode.accessesLocal → 0 ≤ i.operand := by
  obtain ⟨js, hjs, rfl⟩ := encoded_of_decode h
  intro i hi
  obtain ⟨j, hj, rfl⟩ := List.mem_map.1 hi
  obtain ⟨position, bytes, hencodes⟩ := hjs.exists_encodes j hj
  exact hencodes.operand_nonneg

theorem Code.yields_maxLocals (pool : Pool) : Decoder.Yields (fun code => 0 ≤ code.maxLocals) (Code.decode pool) := by
  refine Decoder.yields_bind fun _ => Decoder.yields_bind fun n => ?_
  refine Decoder.yields_bind fun _ => Decoder.yields_bind fun _ => Decoder.yields_bind fun _ => ?_
  refine Decoder.yields_bind fun _ => Decoder.yields_bind fun _ => Decoder.yields_bind fun _ => ?_
  exact Decoder.yields_bind fun _ => Decoder.yields_pure (Int.natCast_nonneg n)

/-! ### What instructions name -/

namespace Session

/-- The field that a class of the session declares or inherits. -/
def field? (t : Session) (owner name : String) : Option FieldInfo :=
  (t.classes.find? (ClassName.slashed owner)).bind fun c => (t.classes.findField c name).toOption

/-- The slot of a method in the vtable of a class of the session. -/
def slot? (t : Session) (owner name descriptor : String) : Option Nat :=
  (t.classes.find? (ClassName.slashed owner)).bind fun c =>
    (t.classes.findMethod c name descriptor).toOption.bind fun m => (methodRef c m).slot

/-- How far a call reaches: to its slot, if it looks one up. -/
def callReach (t : Session) (header : Nat) (how : Lowering.Invocation) (owner name descriptor : String) : Int :=
  match how, t.slot? owner name descriptor with
  | .virtual, some slot => header + 4 * slot
  | _, _ => 0

/-- How far an instruction reaches: the largest offset from the frame base, an object, an array or the pool of static
fields that its code accesses. The elements of an array, and of a vtable, begin after `header` bytes. -/
def reach (t : Session) (header : Nat) (i : Instruction) : Int :=
  match i.opcode, i.constant with
  | .load kind, _ | .store kind, _ => 4 * i.operand + if kind.isWide then 4 else 0
  | .iinc, _ => 4 * i.operand
  | .arrayLoad kind, _ | .arrayStore kind, _ => header + if kind.baseType.bytes = 8 then 4 else 0
  | .arraylength, _ => header - 4
  | .newarray, _ | .anewarray, _ => header
  | .getstatic, some { value := .member _ owner name _, .. } | .putstatic, some { value := .member _ owner name _, .. }
  | .getfield, some { value := .member _ owner name _, .. } | .putfield, some { value := .member _ owner name _, .. } =>
    match t.field? owner name with
    | some f => f.offset + if f.type.words = 2 then 4 else 0
    | none => 0
  | .invokevirtual, some { value := .member _ owner name descriptor, .. } =>
    t.callReach header .virtual owner name descriptor
  | _, _ => 0

/-! ### Code of instructions -/

section Runs
variable {loader : Loader} {className : String} {s s' t : Session} {code : List Instr}

theorem field?_of_answer (className : String) {owner name : String} {ref : FieldRef}
    (ht : ClassTable.Ordered t.classes.latest) (hsuffix : s'.classes.latest <:+ t.classes.latest)
    (h : s.answer loader className (.field owner name) = (.ok ref, s')) :
    ∃ f, t.field? owner name = some f ∧ ref = { offset := f.offset, type := f.type, isStatic := f.flags.isStatic } := by
  obtain ⟨c, f, hfind, hf, href⟩ := field_of_answer className h
  refine ⟨f, ?_, href⟩
  rw [field?, ht.find?_of_suffix hsuffix hfind, Option.bind_some,
    ht.findField_of_suffix hsuffix (ClassTable.mem_of_find? hfind), hf]
  rfl

theorem slot?_of_answer (className : String) {owner name descriptor : String} {ref : MethodRef}
    (ht : ClassTable.Ordered t.classes.latest) (hsuffix : s'.classes.latest <:+ t.classes.latest)
    (h : s.answer loader className (.method owner name descriptor) = (.ok ref, s')) :
    t.slot? owner name descriptor = ref.slot := by
  obtain ⟨c, m, hfind, hm, rfl⟩ := method_of_answer className h
  rw [slot?, ht.find?_of_suffix hsuffix hfind, Option.bind_some,
    ht.findMethod_of_suffix hsuffix (ClassTable.mem_of_find? hfind), hm]
  rfl

theorem reaches_runField {access : Lowering.FieldAccess} {constant : Option Constant}
    (ht : ClassTable.Ordered t.classes.latest) (hsuffix : s'.classes.latest <:+ t.classes.latest)
    (hrun : (Lowering.field access constant).run (context loader className) s = ({ code }, s')) :
    ∃ slot tag owner name descriptor f, constant = some ⟨slot, .member tag owner name descriptor⟩ ∧
      t.field? owner name = some f ∧ Reaches code (f.offset + if f.type.words = 2 then 4 else 0) := by
  unfold Lowering.field at hrun
  split at hrun
  · rename_i slot tag owner name descriptor
    rw [Lowering.run] at hrun
    split at hrun
    · rename_i ref s₁ hanswer
      obtain ⟨hcode, rfl⟩ := Prod.mk.inj hrun
      split at hcode
      · cases hcode
        obtain ⟨f, hf, rfl⟩ := field?_of_answer className ht hsuffix hanswer
        exact ⟨slot, tag, owner, name, descriptor, f, rfl, hf, Template.reaches_field access (Int.natCast_nonneg _)⟩
      · cases hcode
    · cases hrun
  · cases hrun

theorem reaches_runInvoke {header : Nat} {how : Lowering.Invocation} {constant : Option Constant}
    (ht : ClassTable.Ordered t.classes.latest) (hsuffix : s'.classes.latest <:+ t.classes.latest)
    (hrun : (Lowering.invoke header how constant).run (context loader className) s = ({ code }, s')) :
    ∃ slot tag owner name descriptor, constant = some ⟨slot, .member tag owner name descriptor⟩ ∧
      Reaches code (t.callReach header how owner name descriptor) := by
  unfold Lowering.invoke at hrun
  split at hrun
  case h_2 => cases hrun
  rename_i slot tag owner name descriptor
  refine ⟨slot, tag, owner, name, descriptor, rfl, ?_⟩
  split at hrun
  · cases hrun
  rename_i type htype
  dsimp only at hrun
  generalize (if (how == Lowering.Invocation.static) = true then _ else _) = words at hrun
  split at hrun
  · cases hrun
  rename_i hfew
  rw [Lowering.run] at hrun
  split at hrun
  case h_2 => cases hrun
  rename_i target s₁ hanswer
  obtain ⟨hcode, rfl⟩ := Prod.mk.inj hrun
  have hslot := slot?_of_answer className ht hsuffix hanswer
  have harguments := Template.small_popArguments (Nat.not_lt.1 hfew)
  have hresult := Template.small_pushResult type.resultWords
  have hdirect (symbol : String) : Reaches (Template.popArguments words ++ [Instr.call symbol] ++
      Template.pushResult type.resultWords) 0 :=
    ((harguments.append ⟨by simp, by simp⟩).append hresult).reaches (by decide)
  unfold callReach
  rw [hslot]
  split at hcode
  · cases hcode
  cases how with
  | «virtual» =>
    cases hvirtual : target.slot with
    | none =>
      rw [hvirtual] at hcode
      cases hcode
    | some slot =>
      rw [hvirtual] at hcode
      cases hcode
      exact (harguments.append_reaches (Template.reaches_callVirtual slot (Int.natCast_nonneg _))).append_small hresult
  | special =>
    dsimp only at hcode
    split at hcode
    · cases hcode
      have hsmall : Reaches (Template.popArguments words) 0 := harguments.reaches (by decide)
      exact hsmall
    · cases hcode
      exact hdirect _
  | static =>
    cases hcode
    exact hdirect _

theorem of_run_code {c : List Instr} (h : (Lowering.code c).run (context loader className) s = ({ code }, s')) :
    code = c := by
  cases h
  rfl

theorem not_run_fail {cause : Cause} : (Lowering.fail cause).run (context loader className) s ≠ ({ code }, s') := by
  intro h
  cases h

theorem of_run_branchTo {scope : Scope} {target : Int} {c : String → List Instr}
    (h : (scope.branchTo target c).run (context loader className) s = ({ code }, s')) : ∃ label, code = c label := by
  unfold Scope.branchTo at h
  split at h
  · exact ⟨_, of_run_code h⟩
  · exact absurd h not_run_fail

theorem reaches_runNewArray {header : Nat} {descriptor : String} {shift : Nat} (hshift : shift ≤ 31)
    (hrun : (Lowering.newArray header descriptor shift).run (context loader className) s = ({ code }, s')) :
    Reaches code header := by
  rw [Lowering.newArray, Lowering.run] at hrun
  split at hrun
  · cases hrun
    exact Template.reaches_allocateArray _ _ hshift (Int.natCast_nonneg _)
  · cases hrun

theorem small_runNew {constant : Option Constant}
    (hrun : (Lowering.newObject constant).run (context loader className) s = ({ code }, s')) : Small code := by
  unfold Lowering.newObject at hrun
  split at hrun
  · rw [Lowering.run] at hrun
    split at hrun
    · cases hrun
      exact Template.small_allocateObject _ _ _
    · cases hrun
  · exact absurd hrun not_run_fail

theorem small_runConstant {constant : Option Constant}
    (hrun : (Lowering.constant constant).run (context loader className) s = ({ code }, s')) : Small code := by
  unfold Lowering.constant at hrun
  split at hrun
  · obtain rfl := of_run_code hrun
    exact Template.small_pushInt _
  · obtain rfl := of_run_code hrun
    exact Template.small_pushLong _
  · rw [Lowering.run] at hrun
    split at hrun
    · cases hrun
      have hload (label : String) : Small [Instr.la .t0 label] := ⟨by simp, by simp⟩
      exact (hload _).append (Template.small_push _)
    · cases hrun
  · exact absurd hrun not_run_fail

theorem reaches_run {scope : Scope} {header : Nat} {i : Instruction} (ht : ClassTable.Ordered t.classes.latest)
    (hsuffix : s'.classes.latest <:+ t.classes.latest) (hheader : scope.header = header)
    (hlocal : i.opcode.accessesLocal → 0 ≤ i.operand)
    (hrun : (scope.lower i).run (context loader className) s = ({ code }, s')) : Reaches code (t.reach header i) := by
  obtain ⟨offset, opcode, operand, increment, target, switchTargets, constant⟩ := i
  have hsmall {c : List Instr} (hc : Small c) : Reaches c 0 := hc.reaches (by decide)
  cases opcode with
  | nop =>
    obtain rfl := of_run_code hrun
    exact hsmall ⟨by simp, by simp⟩
  | aconstNull =>
    obtain rfl := of_run_code hrun
    exact hsmall (Template.small_push _)
  | iconst _ | bipush | sipush =>
    obtain rfl := of_run_code hrun
    exact hsmall (Template.small_pushInt _)
  | lconst _ =>
    obtain rfl := of_run_code hrun
    exact hsmall (Template.small_pushLong _)
  | ldc => exact hsmall (small_runConstant hrun)
  | load kind =>
    obtain rfl := of_run_code hrun
    exact Template.reaches_loadLocal kind (hlocal rfl)
  | store kind =>
    obtain rfl := of_run_code hrun
    exact Template.reaches_storeLocal kind (hlocal rfl)
  | iinc =>
    obtain rfl := of_run_code hrun
    exact Template.reaches_increment _ (hlocal rfl)
  | arrayLoad kind =>
    obtain rfl := of_run_code hrun
    rw [hheader]
    exact Template.reaches_arrayLoad _ (Int.natCast_nonneg _)
  | arrayStore kind =>
    obtain rfl := of_run_code hrun
    rw [hheader]
    exact Template.reaches_arrayStore _ (Int.natCast_nonneg _)
  | arraylength =>
    obtain rfl := of_run_code hrun
    rw [hheader]
    exact Template.reaches_arrayLength (Int.natCast_nonneg _)
  | pop | pop2 | dup | dupX1 | dupX2 | dup2 | dup2X1 | dup2X2 | swap =>
    obtain rfl := of_run_code hrun
    exact hsmall ⟨by decide, by decide⟩
  | arithmetic op kind =>
    cases kind with
    | int =>
      obtain rfl := of_run_code hrun
      exact hsmall (Template.small_combine _)
    | _ => exact absurd hrun not_run_fail
  | bitwise op kind =>
    cases kind with
    | int =>
      obtain rfl := of_run_code hrun
      exact hsmall (Template.small_combine _)
    | _ => exact absurd hrun not_run_fail
  | negate kind =>
    cases kind with
    | int =>
      obtain rfl := of_run_code hrun
      exact hsmall ⟨by decide, by decide⟩
    | _ => exact absurd hrun not_run_fail
  | narrow width =>
    cases width <;> obtain rfl := of_run_code hrun <;> exact hsmall ⟨by decide, by decide⟩
  | ifZero _ | ifnull | ifnonnull | ifInt _ | ifSame | ifNotSame =>
    obtain ⟨label, rfl⟩ := of_run_branchTo hrun
    exact hsmall (Template.small_branchIf _ _ _)
  | goto =>
    obtain ⟨label, rfl⟩ := of_run_branchTo hrun
    exact hsmall ⟨by simp, by simp⟩
  | returnValue kind =>
    obtain rfl := of_run_code hrun
    exact hsmall ((Template.small_popResult kind).append ⟨by simp [Scope.leave], by simp [Scope.leave]⟩)
  | returnVoid =>
    obtain rfl := of_run_code hrun
    exact hsmall ⟨by simp [Scope.leave], by simp [Scope.leave]⟩
  | getstatic | putstatic | getfield | putfield =>
    obtain ⟨slot, tag, owner, name, descriptor, f, rfl, hf, hreaches⟩ := reaches_runField ht hsuffix hrun
    simpa [reach, hf] using hreaches
  | invokestatic | invokespecial | invokevirtual =>
    simp only [Scope.lower, hheader] at hrun
    obtain ⟨slot, tag, owner, name, descriptor, rfl, hreaches⟩ := reaches_runInvoke ht hsuffix hrun
    exact hreaches
  | new => exact hsmall (small_runNew hrun)
  | newarray =>
    simp only [Scope.lower, hheader] at hrun
    split at hrun
    · rename_i element helement
      exact reaches_runNewArray element.shift_le hrun
    · exact absurd hrun not_run_fail
  | anewarray =>
    simp only [Scope.lower, hheader, Lowering.newObjectArray] at hrun
    split at hrun
    · exact reaches_runNewArray (by decide) hrun
    · exact absurd hrun not_run_fail
  | _ => exact absurd hrun not_run_fail

/-! ### Code of methods -/

theorem reaches_listing {scope : Scope} {header : Nat} {instructions : List Instruction}
    (ht : ClassTable.Ordered t.classes.latest) (hheader : scope.header = header)
    (hlocal : ∀ i ∈ instructions, i.opcode.accessesLocal → 0 ≤ i.operand)
    (hf : (scope.listing (context loader className) instructions s).failure = none)
    (hsuffix : (scope.listing (context loader className) instructions s).state.classes.latest <:+ t.classes.latest) :
    (Fits (codeOf (scope.listing (context loader className) instructions s).lines) ↔
        ∀ i ∈ instructions, t.reach header i ≤ 2047) ∧
      ShiftsFit (codeOf (scope.listing (context loader className) instructions s).lines) := by
  induction instructions generalizing s with
  | nil => exact ⟨⟨fun _ => List.forall_mem_nil _, fun _ => fits_nil⟩, shiftsFit_nil⟩
  | cons i rest ih =>
    obtain ⟨code, s₁, hrun, hrest, hlines⟩ := Scope.listing_cons hf
    have hstate : (scope.listing (context loader className) (i :: rest) s).state =
        (scope.listing (context loader className) rest s₁).state := by
      rw [Scope.listing, hrun]
      rfl
    rw [hstate] at hsuffix
    have hsteps : Steps loader s₁ (scope.listing (context loader className) rest s₁).state := steps_listing rest s₁
    obtain ⟨hfirst, hothers⟩ := List.forall_mem_cons.1 hlocal
    obtain ⟨hfits, hshifts⟩ := ih hothers hrest hsuffix
    have hreaches := reaches_run ht (hsteps.latest_suffix.trans hsuffix) hheader hfirst hrun
    rw [hlines, codeOf_append, codeOf_append, codeOf_labelLines, codeOf_instrs, List.nil_append, List.forall_mem_cons]
    exact ⟨fits_append.trans (and_congr hreaches.fits_iff hfits), shiftsFit_append.2 ⟨hreaches.shifts, hshifts⟩⟩

end Runs

/-- The code of a method can be encoded exactly if its frame has at most 2047 bytes and none of its instructions reaches
farther. Shifts are by fixed numbers of bits, which can always be encoded. -/
theorem Reached.method_fits_iff {loader : Loader} {s : Session} (hs : s.Reached loader) {bytes : ByteArray}
    {file : ClassFile} (hfile : ClassFile.decode bytes = .ok file) {d : MethodDecl} (hd : d ∈ file.methods) {code : Code}
    (hbody : d.body? = some code) (header : Nat) (className : String)
    (hf : (d.listing (context loader className) header className s).failure = none) :
    (Fits (codeOf (d.listing (context loader className) header className s).lines) ↔
        4 * (code.maxLocals + 2) ≤ 2047 ∧ ∀ i ∈ code.instructions,
          (d.listing (context loader className) header className s).state.reach header i ≤ 2047) ∧
      ShiftsFit (codeOf (d.listing (context loader className) header className s).lines) := by
  have hcode := MethodDecl.code_of_body? hbody
  have hlocals : 0 ≤ code.maxLocals := ClassFile.bodies_of_decode Code.yields_maxLocals hfile d hd code hcode
  obtain ⟨pool, bytecode, hdecode⟩ := ClassFile.fromBytecode_of_decode hfile d hd code hcode
  have hordered : ClassTable.Ordered (d.listing (context loader className) header className s).state.classes.latest :=
    ((steps_methodListing d header className s).keep (P := fun s => s.classes.Linked loader)
      (fun hstep h => hstep.linked h) hs.linked).ordered
  obtain ⟨type, htype⟩ := MethodDecl.type_of_listing hbody hf
  obtain ⟨hfew, hfail, hlines⟩ := MethodDecl.lines_listing hbody htype hf
  have hlast : ((d.bodyScope header className code).listing (context loader className) code.instructions s).state =
      (d.listing (context loader className) header className s).state := (state_methodListing hbody htype hf).symm
  obtain ⟨hfits, hshifts⟩ := reaches_listing hordered rfl (Bytecode.operand_nonneg_of_decode hdecode) hfail
    (hlast ▸ List.suffix_refl _)
  obtain ⟨hframe, hframeShifts⟩ := Template.reaches_frame hlocals hfew
  have hall : codeOf (d.listing (context loader className) header className s).lines =
      Template.enter code.maxLocals (d.argumentWords type) ++
        codeOf ((d.bodyScope header className code).listing (context loader className) code.instructions s).lines ++
        Template.leave code.maxLocals := by
    rw [hlines, Scope.linesBefore, List.take_length]
    simp only [List.cons_append, codeOf_label, codeOf_append, codeOf_instrs, codeOf_blank, List.append_nil]
  rw [fits_append] at hframe
  rw [shiftsFit_append] at hframeShifts
  rw [hall]
  simp only [fits_append, shiftsFit_append]
  refine ⟨?_, ⟨hframeShifts.1, hshifts⟩, hframeShifts.2⟩
  rw [← hframe, ← hfits, and_right_comm]

/-- A class with a method that has room for 510 locals, and one that reads a field of two words. -/
def cellar : ClassFile :=
  classFile 0x0021 "Main" (some "java/lang/Object") [⟨⟨0⟩, "total", "J"⟩]
    [⟨⟨0x0009⟩, "deep", "()V", some
        { maxStack := 0, maxLocals := 510, handlers := [], instructions := [{ offset := 1, opcode := .returnVoid }] }⟩,
      ⟨⟨0x0001⟩, "get", "()J", some
        { maxStack := 2, maxLocals := 1, handlers := []
          instructions :=
            [{ offset := 1, opcode := .load .reference, operand := 0 },
              { offset := 2, opcode := .getfield, constant := some ⟨8, .member 9 "Main" "total" "J"⟩ },
              { offset := 5, opcode := .returnValue .long }] }⟩]

/-- The file of that class. -/
def cellarBytes : ByteArray :=
  ⟨#[202, 254, 186, 190, 0, 0, 0, 52, 0, 14, 1, 0, 4, 77, 97, 105, 110, 7, 0, 1, 1, 0, 16, 106, 97, 118, 97, 47, 108, 97,
    110, 103, 47, 79, 98, 106, 101, 99, 116, 7, 0, 3, 1, 0, 5, 116, 111, 116, 97, 108, 1, 0, 1, 74, 12, 0, 5, 0, 6, 9, 0,
    2, 0, 7, 1, 0, 4, 100, 101, 101, 112, 1, 0, 3, 40, 41, 86, 1, 0, 4, 67, 111, 100, 101, 1, 0, 3, 103, 101, 116, 1, 0,
    3, 40, 41, 74, 0, 33, 0, 2, 0, 4, 0, 0, 0, 1, 0, 0, 0, 5, 0, 6, 0, 0, 0, 2, 0, 9, 0, 9, 0, 10, 0, 1, 0, 11, 0, 0, 0,
    13, 0, 0, 1, 254, 0, 0, 0, 1, 177, 0, 0, 0, 0, 0, 1, 0, 12, 0, 13, 0, 1, 0, 11, 0, 0, 0, 17, 0, 2, 0, 1, 0, 0, 0, 5,
    42, 180, 0, 8, 173, 0, 0, 0, 0, 0, 0]⟩

theorem decode_cellar : ClassFile.decode cellarBytes = .ok cellar := by
  decide +kernel

/-- A program around that class. -/
def house : Loader where
  load
    | "java/lang/Object" => .ok (classFile 0x0001 "java/lang/Object" none [⟨⟨0⟩, "vtable", "I"⟩] [])
    | "java/lang/Array" =>
      .ok (classFile 0x0001 "java/lang/Array" (some "java/lang/Object") [⟨⟨0⟩, "length", "I"⟩] [])
    | "java/lang/String" =>
      .ok (classFile 0x0001 "java/lang/String" (some "java/lang/Object") [⟨⟨0⟩, "value", "[C"⟩] [])
    | "Main" => .ok cellar
    | name => .error (Cause.classNotFound name : Failure)
  limit := 4

/-- The program is accepted, with the size of the large frame in an immediate. -/
theorem house_adds_too_much :
    ClassFile.decode cellarBytes = .ok cellar ∧ house.load "Main" = .ok cellar ∧
      (({} : Session).compile house ByteArray.empty "Main").failure = none ∧
      .opImm .addi .sp .sp 2048 ∈ codeOf (({} : Session).compile house ByteArray.empty "Main").lines := by
  refine ⟨decode_cellar, rfl, ?_⟩
  decide +kernel

/-- The frame for the locals of the first method is too large, the field that the second one reads is near. -/
theorem cellar_get_fits_deep_does_not :
    ∃ deep ∈ cellar.methods, ∃ get ∈ cellar.methods,
      (deep.listing (context house "Main") 8 "Main" {}).failure = none ∧
      ¬ Fits (codeOf (deep.listing (context house "Main") 8 "Main" {}).lines) ∧
      (get.listing (context house "Main") 8 "Main" {}).failure = none ∧
      Fits (codeOf (get.listing (context house "Main") 8 "Main" {}).lines) := by
  obtain ⟨hdeep, hget⟩ : ((cellar.methods.getD 0 default).listing (context house "Main") 8 "Main" {}).failure = none ∧
      ((cellar.methods.getD 1 default).listing (context house "Main") 8 "Main" {}).failure = none := by decide +kernel
  refine ⟨cellar.methods.getD 0 default, by decide, cellar.methods.getD 1 default, by decide, hdeep, ?_, hget, ?_⟩
  · intro hfits
    obtain ⟨hframe, -⟩ := (Reached.start.method_fits_iff decode_cellar (by decide) rfl 8 "Main" hdeep).1.1 hfits
    exact absurd hframe (by decide)
  · refine (Reached.start.method_fits_iff decode_cellar (by decide) rfl 8 "Main" hget).1.2 ⟨by decide, ?_⟩
    decide +kernel

end Session

end JvmAot
