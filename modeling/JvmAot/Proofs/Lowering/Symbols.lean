import JvmAot.Lowering.Method
import JvmAot.Proofs.Asm.Symbols

/-! # Symbols in code

`refers_lower`: the code of an instruction refers to the label of its branch target, to the end of its method and
to what the answer to its question names, and to nothing else. -/

namespace JvmAot

/-- The symbols that code refers to. -/
def symbolsOf (code : List Instr) : List String :=
  code.filterMap Instr.symbol?

/-! ### Templates -/

section
open Template Instr
variable {op : Mnemonic} {rd rs base : Register} {n : Int}

@[simp] theorem symbolsOf_nil : symbolsOf [] = [] := rfl

@[simp] theorem symbolsOf_cons (i : Instr) (code : List Instr) :
    symbolsOf (i :: code) = i.symbol?.toList ++ symbolsOf code := by
  cases h : i.symbol? <;> simp [symbolsOf, h]

@[simp] theorem symbolsOf_append (code more : List Instr) :
    symbolsOf (code ++ more) = symbolsOf code ++ symbolsOf more :=
  List.filterMap_append

theorem symbolsOf_map {α : Type} {f : α → Instr} (l : List α) (h : ∀ a, (f a).symbol? = none) :
    symbolsOf (l.map f) = [] := by
  simp [symbolsOf, h]

theorem symbol?_op3 {rs' : Register} (h : op.isSymbolic = false) : (op3 op rd rs rs').symbol? = none := by
  simp [symbol?, mnemonic, h]

theorem symbol?_load (h : op.isSymbolic = false) : (load op rd n base).symbol? = none := by
  simp [symbol?, mnemonic, h]

theorem symbol?_store (h : op.isSymbolic = false) : (store op rs n base).symbol? = none := by
  simp [symbol?, mnemonic, h]

theorem symbol?_branch {label : String} (h : op.isSymbolic) : (branch op rs rd label).symbol? = some label := by
  simp [symbol?, mnemonic, operands, h]

theorem isSymbolic_of_loadOp? {bytes : Nat} {isSigned : Bool} (h : loadOp? bytes isSigned = some op) :
    op.isSymbolic = false := by
  unfold loadOp? at h
  split at h <;> cases h <;> rfl

theorem isSymbolic_of_storeOp? {bytes : Nat} (h : storeOp? bytes = some op) : op.isSymbolic = false := by
  unfold storeOp? at h
  split at h <;> cases h <;> rfl

theorem symbolsOf_loadLocal (kind : ValueKind) : symbolsOf (loadLocal kind n) = [] := by
  unfold loadLocal
  split <;> rfl

theorem symbolsOf_storeLocal (kind : ValueKind) : symbolsOf (storeLocal kind n) = [] := by
  unfold storeLocal
  split <;> rfl

theorem symbolsOf_increment {k : Int} : symbolsOf (increment n k) = [] := by
  unfold increment
  split <;> rfl

theorem symbolsOf_popResult (kind : ValueKind) : symbolsOf (popResult kind) = [] := by
  unfold popResult
  split <;> rfl

theorem symbolsOf_pushResult (words : Nat) : symbolsOf (pushResult words) = [] := by
  unfold pushResult
  split <;> rfl

theorem symbolsOf_combine (h : op.isSymbolic = false) : symbolsOf (combine op) = [] := by
  simp only [combine, symbolsOf_append, symbolsOf_cons, symbol?_op3 h]
  rfl

theorem symbolsOf_duplicate (depth count : Nat) : symbolsOf (duplicate depth count) = [] := by
  simp only [duplicate, symbolsOf_append]
  rw [symbolsOf_map _ fun _ => rfl, symbolsOf_map _ fun _ => rfl]
  split
  · rfl
  · rw [symbolsOf_map _ fun _ => rfl]
    rfl

theorem symbolsOf_branchIf {againstZero : Bool} {label : String} (h : op.isSymbolic) :
    symbolsOf (branchIf op againstZero label) = [label] := by
  cases againstZero <;> simp [branchIf, symbol?_branch h] <;> rfl

theorem symbolsOf_popArguments (words : Nat) : symbolsOf (popArguments words) = [] := by
  rw [popArguments, symbolsOf_append, symbolsOf_map _ fun _ => rfl]
  split <;> rfl

theorem symbolsOf_enter (words : Nat) : symbolsOf (enter n words) = [] := by
  rw [enter, symbolsOf_append, symbolsOf_map _ fun _ => rfl]
  rfl

theorem symbolsOf_arrayLoad (element : BaseType) : symbolsOf (arrayLoad n element) = [] := by
  rw [arrayLoad, symbolsOf_append]
  split
  · rename_i op hop
    rw [List.cons_append, symbolsOf_cons, symbol?_load (isSymbolic_of_loadOp? hop)]
    rfl
  · rfl

theorem symbolsOf_arrayStore (element : BaseType) : symbolsOf (arrayStore n element) = [] := by
  unfold arrayStore
  split
  · rename_i op hop
    rw [symbolsOf_append, symbolsOf_cons, symbol?_store (isSymbolic_of_storeOp? hop)]
    rfl
  · rfl

theorem symbolsOf_getStatic (pool : String) (type : FieldType) : symbolsOf (getStatic pool n type) = [pool] := by
  unfold getStatic
  split
  · rename_i op hop
    rw [symbolsOf_cons, symbolsOf_cons, symbol?_load (isSymbolic_of_loadOp? hop)]
    rfl
  · rfl

theorem symbolsOf_putStatic (pool : String) (type : FieldType) : symbolsOf (putStatic pool n type) = [pool] := by
  unfold putStatic
  split
  · rename_i op hop
    rw [List.cons_append, symbolsOf_cons, symbolsOf_append, symbolsOf_cons, symbol?_store (isSymbolic_of_storeOp? hop)]
    rfl
  · rfl

theorem symbolsOf_getField (type : FieldType) : symbolsOf (getField n type) = [] := by
  unfold getField
  split
  · rename_i op hop
    rw [symbolsOf_cons, symbolsOf_cons, symbol?_load (isSymbolic_of_loadOp? hop)]
    rfl
  · rfl

theorem symbolsOf_putField (type : FieldType) : symbolsOf (putField n type) = [] := by
  unfold putField
  split
  · rename_i op hop
    rw [symbolsOf_append, symbolsOf_cons, symbolsOf_cons, symbolsOf_cons, symbol?_store (isSymbolic_of_storeOp? hop)]
    rfl
  · rfl

end

/-! ### Instructions -/

/-- The symbols that the answer to a question brings into the code. -/
def Question.names : (q : Question) → q.Answer → List String
  | .field .., _ => [Symbol.staticFields]
  | .method _ name descriptor, target => [Symbol.ofMethod target.className name descriptor]
  | .instanceSize className, _ => [Symbol.ofVtable className, Symbol.allocateMemory]
  | .arrayVtable _, label => [label, Symbol.allocateMemory]
  | .stringLabel .., label => [label]

/-- Code refers to symbols of its method that satisfy `own`, or to what an answer names. -/
def Lowering.Refers (own : String → Prop) : Lowering → Prop
  | .done result => ∀ x ∈ symbolsOf result.code, own x
  | .ask q next => ∀ a, ∀ x ∈ symbolsOf (next a).code, x ∈ q.names a

namespace Lowering
variable {own : String → Prop} {code : List Instr}

theorem refers_code (h : symbolsOf code = []) : (Lowering.code code).Refers own := by
  intro x hx
  rw [h] at hx
  cases hx

theorem refers_fail (cause : Cause) : (Lowering.fail cause).Refers own :=
  refers_code rfl

theorem refers_constant (c : Option Constant) : (constant c).Refers own := by
  unfold constant
  split
  · exact refers_code rfl
  · exact refers_code rfl
  · exact fun _ _ hx => hx
  · exact refers_fail _

theorem refers_field (access : FieldAccess) (c : Option Constant) : (field access c).Refers own := by
  unfold field
  split
  · intro f x hx
    dsimp only at hx
    split at hx
    · cases access with
      | getStatic => rwa [FieldAccess.code, symbolsOf_getStatic] at hx
      | putStatic => rwa [FieldAccess.code, symbolsOf_putStatic] at hx
      | getField => rw [FieldAccess.code, symbolsOf_getField] at hx; cases hx
      | putField => rw [FieldAccess.code, symbolsOf_putField] at hx; cases hx
    · cases hx
  · exact refers_fail _

theorem refers_invoke (header : Int) (how : Invocation) (c : Option Constant) : (invoke header how c).Refers own := by
  unfold invoke
  split
  · split
    · exact refers_code rfl
    rename_i type _
    dsimp only
    generalize (if (how == Invocation.static) = true then _ else _) = words
    split
    · exact refers_fail _
    intro target x hx
    have hdirect {call : String} (hx : x ∈ symbolsOf (Template.popArguments words ++ [Instr.call call] ++
        Template.pushResult type.resultWords)) : x ∈ [call] := by
      rwa [symbolsOf_append, symbolsOf_append, symbolsOf_popArguments, symbolsOf_pushResult, List.append_nil] at hx
    dsimp only at hx
    split at hx
    · cases hx
    cases how with
    | «virtual» =>
      dsimp only at hx
      split at hx
      · rw [symbolsOf_append, symbolsOf_append, symbolsOf_popArguments, symbolsOf_pushResult] at hx
        cases hx
      · rw [symbolsOf_popArguments] at hx
        cases hx
    | special =>
      dsimp only at hx
      split at hx
      · rw [symbolsOf_popArguments] at hx
        cases hx
      · exact hdirect hx
    | static => exact hdirect hx
  · exact refers_fail _

theorem refers_newArray (header : Int) (descriptor : String) (shift : Nat) :
    (newArray header descriptor shift).Refers own :=
  fun _ _ hx => hx

theorem refers_newObjectArray (header : Int) (c : Option Constant) : (newObjectArray header c).Refers own := by
  unfold newObjectArray
  split
  · exact refers_newArray _ _ _
  · exact refers_fail _

theorem refers_newObject (c : Option Constant) : (newObject c).Refers own := by
  unfold newObject
  split
  · exact fun _ _ hx => hx
  · exact refers_fail _

end Lowering

namespace Scope
variable {scope : Scope} {i : Instruction}

/-- The symbols of a method that the code of one of its instructions refers to. -/
def Owns (scope : Scope) (i : Instruction) (x : String) : Prop :=
  x = Symbol.returnLabel scope.symbol ∨ i.target ∈ i.targets ∧ scope.label? i.target = some x

theorem refers_branchTo {code : String → List Instr} (hi : i.opcode.isBranch)
    (h : ∀ label, symbolsOf (code label) = [label]) : (scope.branchTo i.target code).Refers (scope.Owns i) := by
  unfold branchTo
  split
  · rename_i label hlabel
    intro x hx
    change x ∈ symbolsOf (code label) at hx
    rw [h, List.mem_singleton] at hx
    rw [hx]
    exact .inr ⟨by simp [Instruction.targets, hi], hlabel⟩
  · exact Lowering.refers_fail _

theorem refers_leave {code : List Instr} (h : symbolsOf code = []) :
    (Lowering.code (code ++ scope.leave)).Refers (scope.Owns i) := by
  intro x hx
  change x ∈ symbolsOf (code ++ scope.leave) at hx
  rw [symbolsOf_append, h] at hx
  exact .inl (List.mem_singleton.1 hx)

theorem refers_lower (scope : Scope) (i : Instruction) : (scope.lower i).Refers (scope.Owns i) := by
  obtain ⟨offset, opcode, operand, increment, target, switchTargets, constant⟩ := i
  cases opcode with
  | nop | aconstNull | iconst _ | lconst _ | bipush | sipush | pop | pop2 | dup | swap | arraylength =>
    exact Lowering.refers_code rfl
  | dupX1 | dupX2 | dup2 | dup2X1 | dup2X2 => exact Lowering.refers_code (symbolsOf_duplicate ..)
  | load kind => exact Lowering.refers_code (symbolsOf_loadLocal kind)
  | store kind => exact Lowering.refers_code (symbolsOf_storeLocal kind)
  | iinc => exact Lowering.refers_code symbolsOf_increment
  | arrayLoad kind => exact Lowering.refers_code (symbolsOf_arrayLoad _)
  | arrayStore kind => exact Lowering.refers_code (symbolsOf_arrayStore _)
  | arithmetic op kind =>
    cases kind with
    | int => exact Lowering.refers_code (symbolsOf_combine (by cases op <;> rfl))
    | _ => exact Lowering.refers_fail _
  | bitwise op kind =>
    cases kind with
    | int => exact Lowering.refers_code (symbolsOf_combine (by cases op <;> rfl))
    | _ => exact Lowering.refers_fail _
  | negate kind =>
    cases kind with
    | int => exact Lowering.refers_code rfl
    | _ => exact Lowering.refers_fail _
  | narrow kind => cases kind <;> exact Lowering.refers_code rfl
  | ifZero c | ifInt c => exact refers_branchTo rfl fun _ => symbolsOf_branchIf (by cases c <;> rfl)
  | ifSame | ifNotSame | ifnull | ifnonnull => exact refers_branchTo rfl fun _ => symbolsOf_branchIf rfl
  | goto => exact refers_branchTo rfl fun _ => rfl
  | returnValue kind => exact refers_leave (symbolsOf_popResult kind)
  | returnVoid => exact refers_leave symbolsOf_nil
  | ldc => exact Lowering.refers_constant _
  | getstatic | putstatic | getfield | putfield => exact Lowering.refers_field _ _
  | invokestatic | invokespecial | invokevirtual => exact Lowering.refers_invoke scope.header _ _
  | new => exact Lowering.refers_newObject _
  | newarray =>
    simp only [lower]
    split
    · exact Lowering.refers_newArray scope.header _ _
    · exact Lowering.refers_fail _
  | anewarray => exact Lowering.refers_newObjectArray scope.header _
  | _ => exact Lowering.refers_fail _

end Scope

end JvmAot
