import JvmAot.Lowering.Method
import JvmAot.Proofs.ClassFile.Instructions

/-! # Why methods are not compiled

An instruction fails because its operands are not supported or not right (`Cause.isOfLowering`), because its opcode is
one that decoding replaces, because its target has no label, or because the context has no answer. Instructions that
were decoded have no such opcode, and the targets of a method are labelled before its first instruction is lowered, so
neither the second nor the third happens to a method that was decoded (`MethodDecl.decoded_never_unexpected`). -/

namespace JvmAot

/-- What is wrong with the operands of an instruction. -/
def Cause.isOfLowering : Cause → Bool
  | invalidDescriptor .. | tooManyArguments _ | unsupportedOpcode _ | unsupportedConstant _ | wrongOperand ..
  | invalidElementCode _ | fieldStaticMismatch .. | methodStaticMismatch .. | notVirtual .. => true
  | _ => false

theorem FieldType.isOfLowering_of_parse {text : String} {failure : Failure} (h : parse text = .error failure) :
    failure.cause.isOfLowering = true := by
  unfold parse at h
  split at h
  · rename_i refusal _
    cases h
    cases refusal <;> rfl
  · cases h
  · cases h
    rfl

theorem MethodType.isOfLowering_of_parse {text : String} {failure : Failure} (h : parse text = .error failure) :
    failure.cause.isOfLowering = true := by
  simp only [parse] at h
  split at h
  · split at h
    · cases h
      rfl
    · split at h
      · rename_i refusal _ _
        cases h
        cases refusal <;> rfl
      · split at h <;> cases h
        rfl
  · cases h
    rfl

namespace Lowering
variable {P Q : Cause → Prop}

/-- Whatever the answer is, the causes of failures have the property `P`. -/
def FailsBy (P : Cause → Prop) : Lowering → Prop
  | .done result => ∀ f, result.failure = some f → P f.cause
  | .ask _ next => ∀ answer f, (next answer).failure = some f → P f.cause

theorem FailsBy.mono {lowering : Lowering} (h : lowering.FailsBy P) (hPQ : ∀ cause, P cause → Q cause) :
    lowering.FailsBy Q := by
  cases lowering with
  | done => exact fun f hf => hPQ _ (h f hf)
  | ask => exact fun answer f hf => hPQ _ (h answer f hf)

theorem failsBy_code (code : List Instr) : (Lowering.code code).FailsBy P := by
  intro f hf
  cases hf

theorem failsBy_fail {cause : Cause} (h : P cause) : (Lowering.fail cause).FailsBy P := by
  intro f hf
  cases hf
  exact h

theorem failsBy_constant (c : Option Constant) : (constant c).FailsBy (·.isOfLowering = true) := by
  unfold constant
  split
  · exact failsBy_code _
  · exact failsBy_code _
  · intro answer f hf
    cases hf
  · exact failsBy_fail rfl

theorem failsBy_field (access : FieldAccess) (c : Option Constant) : (field access c).FailsBy (·.isOfLowering = true) := by
  unfold field
  split
  · intro answer f hf
    dsimp only at hf
    split at hf <;> cases hf
    rfl
  · exact failsBy_fail rfl

theorem failsBy_invoke (header : Int) (how : Invocation) (c : Option Constant) :
    (invoke header how c).FailsBy (·.isOfLowering = true) := by
  unfold invoke
  split
  · split
    · rename_i hparse
      intro f hf
      cases hf
      exact MethodType.isOfLowering_of_parse hparse
    · dsimp only
      generalize (if (how == Invocation.static) = true then _ else _) = words
      split
      · exact failsBy_fail rfl
      · intro target f hf
        dsimp only at hf
        split at hf
        · cases hf
          rfl
        · cases how with
          | static => cases hf
          | special =>
            dsimp only at hf
            split at hf <;> cases hf
          | virtual =>
            dsimp only at hf
            split at hf <;> cases hf
            rfl
  · exact failsBy_fail rfl

theorem failsBy_newObject (c : Option Constant) : (newObject c).FailsBy (·.isOfLowering = true) := by
  unfold newObject
  split
  · intro answer f hf
    cases hf
  · exact failsBy_fail rfl

theorem failsBy_newArray (header : Int) (descriptor : String) (shift : Nat) :
    (newArray header descriptor shift).FailsBy P := by
  intro answer f hf
  cases hf

theorem failsBy_newObjectArray (header : Int) (c : Option Constant) :
    (newObjectArray header c).FailsBy (·.isOfLowering = true) := by
  unfold newObjectArray
  split
  · exact failsBy_newArray _ _ _
  · exact failsBy_fail rfl

end Lowering

namespace Scope

open Lowering

/-- Why the code of an instruction fails. -/
inductive Fault (scope : Scope) (i : Instruction) : Cause → Prop
  | operands {cause : Cause} (h : cause.isOfLowering = true) : Fault scope i cause
  | opcode (h : i.opcode.isFolded = true) : Fault scope i (.unexpectedOpcode i.opcode.mnemonic)
  | target (htarget : i.target ∈ i.targets) (hlabel : scope.label? i.target = none) : Fault scope i (.noBranchLabel i.target)

theorem failsBy_branchTo {scope : Scope} {i : Instruction} (h : i.opcode.isBranch = true) (code : String → List Instr) :
    (scope.branchTo i.target code).FailsBy (scope.Fault i) := by
  unfold branchTo
  split
  · exact failsBy_code _
  · rename_i hlabel
    refine failsBy_fail (.target ?_ hlabel)
    rw [Instruction.targets, if_pos h]
    exact List.mem_cons_self ..

theorem failsBy_lower (scope : Scope) (i : Instruction) : (scope.lower i).FailsBy (scope.Fault i) := by
  have hoperands {lowering : Lowering} (h : lowering.FailsBy (·.isOfLowering = true)) :
      lowering.FailsBy (scope.Fault i) := h.mono fun _ => .operands
  obtain ⟨offset, opcode, operand, increment, target, switchTargets, constant⟩ := i
  cases opcode with
  | arithmetic op kind | bitwise op kind =>
    cases kind with
    | int => exact failsBy_code _
    | _ => exact hoperands (failsBy_fail rfl)
  | negate kind =>
    cases kind with
    | int => exact failsBy_code _
    | _ => exact hoperands (failsBy_fail rfl)
  | narrow kind => cases kind <;> exact failsBy_code _
  | ifZero _ | ifInt _ | ifSame | ifNotSame | ifnull | ifnonnull | goto => exact failsBy_branchTo rfl _
  | ldc => exact hoperands (failsBy_constant _)
  | getstatic | putstatic | getfield | putfield => exact hoperands (failsBy_field _ _)
  | invokestatic | invokespecial | invokevirtual => exact hoperands (failsBy_invoke scope.header _ _)
  | new => exact hoperands (failsBy_newObject _)
  | newarray =>
    simp only [lower]
    split
    · exact failsBy_newArray _ _ _
    · exact hoperands (failsBy_fail rfl)
  | anewarray => exact hoperands (failsBy_newObjectArray scope.header _)
  | nop | aconstNull | iconst _ | lconst _ | bipush | sipush | load _ | store _ | iinc | arrayLoad _ | arrayStore _
  | arraylength | pop | pop2 | dup | dupX1 | dupX2 | dup2 | dup2X1 | dup2X2 | swap | returnValue _ | returnVoid =>
    exact failsBy_code _
  | ldcW | ldc2W | loadShort _ _ | storeShort _ _ | wide | gotoW | jsrW | reserved _ => exact failsBy_fail (.opcode rfl)
  | _ => exact hoperands (failsBy_fail rfl)

end Scope

section
variable {σ : Type} {context : Context σ} {state : σ} {f : Failure}

/-- The context itself may fail because of `cause`. -/
def Context.Raises (context : Context σ) (cause : Cause) : Prop :=
  ∃ q state f, (context.answer q state).1 = .error f ∧ f.cause = cause

theorem Lowering.FailsBy.run {P : Cause → Prop} {lowering : Lowering} (h : lowering.FailsBy P)
    (hf : (lowering.run context state).1.failure = some f) : P f.cause ∨ context.Raises f.cause := by
  cases lowering with
  | done => exact .inl (h f hf)
  | ask q next =>
    rw [Lowering.run] at hf
    split at hf
    · exact .inl (h _ f hf)
    · rename_i hanswer
      cases hf
      exact .inr ⟨q, state, f, congrArg Prod.fst hanswer, rfl⟩

/-- The text of instructions fails because of one of them, or because the context does. -/
theorem Scope.fault_of_listing (scope : Scope) {instructions : List Instruction}
    (hf : (scope.listing context instructions state).failure = some f) :
    (∃ i ∈ instructions, scope.Fault i f.cause) ∨ context.Raises f.cause := by
  induction instructions generalizing state with
  | nil => cases hf
  | cons i rest ih =>
    rcases hrun : (scope.lower i).run context state with ⟨⟨code, failure⟩, state'⟩
    rw [listing, hrun] at hf
    cases failure with
    | some failure =>
      cases hf
      have hlowered : ((scope.lower i).run context state).1.failure = some failure := by rw [hrun]
      exact ((scope.failsBy_lower i).run hlowered).imp_left fun hfault => ⟨i, List.mem_cons_self .., hfault⟩
    | none =>
      exact (ih hf).imp_left fun ⟨j, hj, hfault⟩ => ⟨j, List.mem_cons_of_mem i hj, hfault⟩

theorem mem_branchTargets {instructions : List Instruction} {target : Int} :
    target ∈ branchTargets instructions ↔ ∃ i ∈ instructions, target ∈ i.targets := by
  rw [branchTargets, List.mem_mergeSort, List.mem_eraseDups, List.mem_flatMap]

theorem Scope.label?_ne_none {instructions : List Instruction} {i : Instruction} (hi : i ∈ instructions)
    {target : Int} (htarget : target ∈ i.targets) (symbol : String) (header : Int) :
    (⟨symbol, branchTargets instructions, header⟩ : Scope).label? target ≠ none := by
  rw [label?, ne_eq, Option.map_eq_none_iff, List.idxOf?_eq_none_iff]
  exact not_not_intro (mem_branchTargets.2 ⟨i, hi, htarget⟩)

/-- What is wrong with a method or with the operands of its instructions. -/
def Cause.isOfTranslation : Cause → Bool
  | exceptionHandlers .. | tooManyParameters .. => true
  | cause => cause.isOfLowering

theorem Cause.isOfTranslation_of_isOfLowering {cause : Cause} (h : cause.isOfLowering = true) :
    cause.isOfTranslation = true := by
  unfold isOfTranslation
  split
  · rfl
  · rfl
  · exact h

theorem Listing.failure_append (t : Listing σ) (lines : List Line) : (t.append lines).failure = t.failure := by
  unfold append
  split
  · rfl
  · rfl

namespace MethodDecl
variable {m : MethodDecl} {header : Int} {className : String}

theorem code_of_body? {code : Code} (h : m.body? = some code) : code ∈ m.code := by
  unfold body? at h
  split at h
  · cases h
  · exact h

theorem cause_of_bodyListing {symbol : String} {words : Nat} {code : Code}
    (hf : (bodyListing context header symbol words code state).failure = some f) :
    f.cause.isOfTranslation = true ∨ (∃ i ∈ code.instructions, i.opcode.isFolded = true) ∨ context.Raises f.cause := by
  unfold bodyListing at hf
  split at hf
  · cases hf
    exact .inl rfl
  · rw [Listing.failure_append] at hf
    rcases Scope.fault_of_listing _ hf with ⟨i, hi, hfault⟩ | hraises
    · generalize f.cause = cause at hfault
      cases hfault with
      | operands h => exact .inl (Cause.isOfTranslation_of_isOfLowering h)
      | opcode h => exact .inr (.inl ⟨i, hi, h⟩)
      -- The labels of a method are those of the targets of all its instructions.
      | target htarget hlabel => exact absurd hlabel (Scope.label?_ne_none hi htarget symbol header)
    · exact .inr (.inr hraises)

/-- A method is not compiled because of what it asks for, because of an opcode that decoding replaces, or because of the
context. -/
theorem cause_of_listing (hf : (m.listing context header className state).failure = some f) :
    f.cause.isOfTranslation = true ∨ (∃ code ∈ m.code, ∃ i ∈ code.instructions, i.opcode.isFolded = true) ∨
      context.Raises f.cause := by
  unfold listing at hf
  split at hf
  · cases hf
  · rename_i code hbody
    split at hf
    · rename_i hparse
      cases hf
      exact .inl (Cause.isOfTranslation_of_isOfLowering (MethodType.isOfLowering_of_parse hparse))
    · split at hf
      · cases hf
        exact .inl rfl
      · obtain ⟨f', hf', rfl⟩ := Option.map_eq_some_iff.1 hf
        rcases cause_of_bodyListing hf' with h | ⟨i, hi, hfolded⟩ | hraises
        · exact .inl h
        · exact .inr (.inl ⟨code, code_of_body? hbody, i, hi, hfolded⟩)
        · exact .inr (.inr hraises)

end MethodDecl

end

/-- An opcode that decoding never yields, or a target without a label. -/
def Cause.isMisdecoded : Cause → Bool
  | unexpectedOpcode _ | noBranchLabel _ => true
  | _ => false

theorem Cause.isMisdecoded_of_isOfTranslation {cause : Cause} (h : cause.isOfTranslation = true) :
    cause.isMisdecoded = false := by
  cases cause <;> first | rfl | cases h

theorem MethodDecl.FromBytecode.general {m : MethodDecl} (h : m.FromBytecode) {code : Code} (hcode : code ∈ m.code)
    {i : Instruction} (hi : i ∈ code.instructions) : i.opcode.isFolded = false := by
  obtain ⟨pool, bytes, hdecode⟩ := h code hcode
  exact (Bytecode.decoded_of_decode hdecode i hi).general

/-- Decoding yields no opcode that lowering does not expect and no branch whose target has no label, so no method of a
class that was read fails because of one. -/
theorem MethodDecl.decoded_never_unexpected :
    (∀ byte : UInt8, (Opcode.ofByte byte).isFolded = true ↔
      byte = 19 ∨ byte = 20 ∨ (26 ≤ byte ∧ byte ≤ 45) ∨ (59 ≤ byte ∧ byte ≤ 78) ∨ byte = 196 ∨ 200 ≤ byte) ∧
    (∀ pool bytes instructions, Bytecode.decode pool bytes = .ok instructions →
      ∀ i ∈ instructions, i.opcode.isFolded = false) ∧
    (∀ bytes file, ClassFile.decode bytes = .ok file → ∀ m ∈ file.methods, m.FromBytecode) ∧
    ∀ (σ : Type) (context : Context σ) (header : Int) (className : String) (m : MethodDecl) (state : σ) (f : Failure),
      m.FromBytecode → (m.listing context header className state).failure = some f →
        f.cause.isMisdecoded = false ∨ context.Raises f.cause := by
  refine ⟨Opcode.isFolded_ofByte, fun pool bytes is h i hi => (Bytecode.decoded_of_decode h i hi).general,
    fun bytes file h => ClassFile.fromBytecode_of_decode h, fun σ context header className m state f hm hf => ?_⟩
  rcases cause_of_listing hf with h | ⟨code, hcode, i, hi, hfolded⟩ | hraises
  · exact .inl (Cause.isMisdecoded_of_isOfTranslation h)
  · rw [hm.general hcode hi] at hfolded
    cases hfolded
  · exact .inr hraises

/-- A pool with a class name in slot 2. -/
def namedPool : Pool :=
  ⟨#[.unusable, .utf8 [65], .classRef 1]⟩

/-- Short, wide and long forms: `iload_0`, `wide iload 1`, `goto_w`, `ldc_w` of a class, `return`. -/
def foldedForms : List UInt8 :=
  [26, 196, 21, 0, 1, 200, 0, 0, 0, 5, 19, 0, 2, 177]

def foldedMethod (instructions : List Instruction) : MethodDecl :=
  { flags := ⟨8⟩, name := "m", descriptor := "(II)V", code := some { maxStack := 2, maxLocals := 2, instructions, handlers := [] } }

/-- A context without any class. -/
def emptyContext : Context Unit :=
  ⟨fun _ state => (.error (Cause.classNotFound "A" : Failure), state)⟩

theorem foldedForms_fail_expected : ∃ instructions, Bytecode.decode namedPool foldedForms = .ok instructions ∧
    instructions.map Instruction.opcode = [.load .int, .load .int, .goto, .ldc, .returnVoid] ∧
    (foldedMethod instructions).FromBytecode ∧
    ∃ f, ((foldedMethod instructions).listing emptyContext 8 "A" ()).failure = some f ∧
      (f.cause.isMisdecoded = false ∨ emptyContext.Raises f.cause) := by
  have hopcodes : (Bytecode.decode namedPool foldedForms).toOption.map (fun is => (is.map Instruction.opcode,
      ((foldedMethod is).listing emptyContext 8 "A" ()).failure.isSome)) =
      some ([.load .int, .load .int, .goto, .ldc, .returnVoid], true) := by
    decide +kernel
  cases hdecode : Bytecode.decode namedPool foldedForms with
  | error =>
    rw [hdecode] at hopcodes
    cases hopcodes
  | ok instructions =>
    rw [hdecode] at hopcodes
    have hpair := Option.some.inj hopcodes
    have hm : (foldedMethod instructions).FromBytecode := by
      rintro _ ⟨⟩
      exact ⟨namedPool, foldedForms, hdecode⟩
    obtain ⟨f, hf⟩ := Option.isSome_iff_exists.1 (congrArg Prod.snd hpair)
    exact ⟨instructions, rfl, congrArg Prod.fst hpair, hm, f, hf,
      MethodDecl.decoded_never_unexpected.2.2.2 Unit emptyContext 8 "A" _ () f hm hf⟩

end JvmAot
