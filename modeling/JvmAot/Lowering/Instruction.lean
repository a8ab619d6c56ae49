import JvmAot.Bytecode.Instruction
import JvmAot.Descriptor.MethodType
import JvmAot.Lowering.Question
import JvmAot.Lowering.Stack
import JvmAot.ClassFile.Basic
import JvmAot.Symbol

/-! # Lowering instructions

`Scope.lower` gives the machine code of one instruction. The input is trusted to be verified bytecode:
neither the depth of the operand stack nor the types on it are tracked. -/

namespace JvmAot

/-- What the instructions of one method share. -/
structure Scope where
  /-- The symbol of the method. -/
  symbol : String
  /-- The branch targets in ascending order, without repetition. -/
  targets : List Int
  /-- The offset of the elements in every array. -/
  header : Int
  deriving DecidableEq, Repr, Inhabited

namespace Scope

/-- The label of a branch target. -/
def label? (scope : Scope) (target : Int) : Option String :=
  (scope.targets.idxOf? target).map (Symbol.branchLabel scope.symbol)

/-- The code of a branch, given the label of its target. -/
def branchTo (scope : Scope) (target : Int) (code : String → List Instr) : Lowering :=
  match scope.label? target with
  | some label => .code (code label)
  | none => .fail (.noBranchLabel target)

/-- Jumps to the end of the method. -/
def leave (scope : Scope) : List Instr :=
  [.jump (Symbol.returnLabel scope.symbol)]

end Scope

namespace Lowering

open Template

/-- The branch instruction of a comparison. -/
def branchOp : Comparison → Mnemonic
  | .eq => .beq
  | .ne => .bne
  | .lt => .blt
  | .ge => .bge
  | .gt => .bgt
  | .le => .ble

/-- The machine instruction of an operation on integers. -/
def arithmeticOp : Arithmetic → Mnemonic
  | .add => .add
  | .sub => .sub
  | .mul => .mul
  | .div => .div
  | .rem => .rem

/-- The machine instruction of an operation on the bits of integers. -/
def bitwiseOp : Bitwise → Mnemonic
  | .shl => .sll
  | .shr => .sra
  | .ushr => .srl
  | .and => .and
  | .or => .or
  | .xor => .xor

/-- Pushes a constant from the pool. -/
def constant (c : Option Constant) : Lowering :=
  match c with
  | some { value := .integer value, .. } => .code (pushInt value)
  | some { value := .long value, .. } => .code (pushLong value)
  | some { slot, value := .string units } =>
    .ask (.stringLabel slot units) fun label => { code := .la .t0 label :: push .t0 }
  | c => .fail (.unsupportedConstant (Constant.typeName? c))

/-- The four ways to access a field. -/
inductive FieldAccess where
  | getStatic | putStatic | getField | putField
  deriving DecidableEq, Repr, Inhabited

namespace FieldAccess

/-- Whether the field is accessed without an object. -/
def isStatic : FieldAccess → Bool
  | getStatic | putStatic => true
  | getField | putField => false

/-- The code that accesses a field. -/
def code : FieldAccess → FieldRef → List Instr
  | getStatic, f => Template.getStatic Symbol.staticFields f.offset f.type
  | putStatic, f => Template.putStatic Symbol.staticFields f.offset f.type
  | getField, f => Template.getField f.offset f.type
  | putField, f => Template.putField f.offset f.type

end FieldAccess

/-- Accesses a field. -/
def field (access : FieldAccess) (c : Option Constant) : Lowering :=
  match c with
  | some { value := .member _ owner name _, .. } =>
    .ask (.field owner name) fun f =>
      if f.isStatic = access.isStatic then { code := access.code f }
      else { code := [], failure := some (Cause.fieldStaticMismatch owner name : Failure) }
  | c => .fail (.wrongOperand (Constant.typeName? c) "a field reference")

/-- The three ways to call a method. -/
inductive Invocation where
  | static | special | virtual
  deriving DecidableEq, Repr, Inhabited

/-- Calls a method. Arguments are taken off the stack before a virtual call is found to have no slot. A
call of an instance initializer only consumes its arguments, as initializers have no body. -/
def invoke (header : Int) (how : Invocation) (c : Option Constant) : Lowering :=
  match c with
  | some { value := .member _ owner name descriptor, .. } =>
    match MethodType.parse descriptor with
    | .error failure => .done { code := [], failure := some failure }
    | .ok type =>
      let isStatic := how == .static
      let words := if isStatic then type.parameterWords else type.parameterWords + 1
      if Register.arguments.length < words then .fail (.tooManyArguments words)
      else .ask (.method owner name descriptor) fun target =>
        let direct := [Instr.call (Symbol.ofMethod target.className name descriptor)]
        let result := pushResult type.resultWords
        if target.isStatic ≠ isStatic then
          { code := [], failure := some (Cause.methodStaticMismatch owner name descriptor : Failure) }
        else match how with
          | .virtual =>
            match target.slot with
            | some slot => { code := popArguments words ++ callVirtual header slot ++ result }
            | none =>
              { code := popArguments words
                failure := some (Cause.notVirtual owner name descriptor : Failure) }
          | .special =>
            if name = MethodDecl.constructorName then { code := popArguments words }
            else { code := popArguments words ++ direct ++ result }
          | .static => { code := popArguments words ++ direct ++ result }
  | c => .fail (.wrongOperand (Constant.typeName? c) "a method reference")

/-- Allocates an instance of a class. -/
def newObject (c : Option Constant) : Lowering :=
  match c with
  | some { value := .classRef name, .. } =>
    .ask (.instanceSize name) fun size =>
      { code := allocateObject Symbol.allocateMemory size (Symbol.ofVtable name) }
  | c => .fail (.wrongOperand (Constant.typeName? c) "a class")

/-- Allocates an array of the type `descriptor`. -/
def newArray (header : Int) (descriptor : String) (shift : Nat) : Lowering :=
  .ask (.arrayVtable descriptor) fun vtable =>
    { code := allocateArray Symbol.allocateMemory header shift vtable }

/-- The descriptor of the arrays whose elements are of class `name`, which may itself be an array
descriptor. -/
def arrayOf (name : String) : String :=
  if ClassName.isArray name then "[" ++ name else "[L" ++ name ++ ";"

/-- Allocates an array of references. -/
def newObjectArray (header : Int) (c : Option Constant) : Lowering :=
  match c with
  | some { value := .classRef name, .. } => newArray header (arrayOf name) 2
  | c => .fail (.wrongOperand (Constant.typeName? c) "a class")

end Lowering

open Template in
/-- The machine code of an instruction. -/
def Scope.lower (scope : Scope) (i : Instruction) : Lowering :=
  match i.opcode with
  | .nop => .code []
  | .aconstNull => .code (push .zero)
  | .iconst index => .code (pushInt ((index.val : Int) - 1))
  | .lconst value => .code (pushLong value.val)
  | .bipush | .sipush => .code (pushInt i.operand)
  | .ldc => .constant i.constant
  | .load kind => .code (loadLocal kind i.operand)
  | .store kind => .code (storeLocal kind i.operand)
  | .iinc => .code (increment i.operand i.increment)
  | .arrayLoad kind => .code (arrayLoad scope.header kind.baseType)
  | .arrayStore kind => .code (arrayStore scope.header kind.baseType)
  | .arraylength => .code (arrayLength scope.header)
  | .pop => .code (adjust 4)
  | .pop2 => .code (adjust 8)
  | .dup => .code duplicateTop
  | .dupX1 => .code (duplicate 2 1)
  | .dupX2 => .code (duplicate 3 1)
  | .dup2 => .code (duplicate 2 2)
  | .dup2X1 => .code (duplicate 3 2)
  | .dup2X2 => .code (duplicate 4 2)
  | .swap => .code swap
  | .arithmetic op .int => .code (combine (Lowering.arithmeticOp op))
  | .bitwise op .int => .code (combine (Lowering.bitwiseOp op))
  | .negate .int => .code negate
  | .narrow .byte => .code (narrow 24 .srai)
  | .narrow .char => .code (narrow 16 .srli)
  | .narrow .short => .code (narrow 16 .srai)
  | .ifZero c => scope.branchTo i.target (branchIf (Lowering.branchOp c) true)
  | .ifnull => scope.branchTo i.target (branchIf .beq true)
  | .ifnonnull => scope.branchTo i.target (branchIf .bne true)
  | .ifInt c => scope.branchTo i.target (branchIf (Lowering.branchOp c) false)
  | .ifSame => scope.branchTo i.target (branchIf .beq false)
  | .ifNotSame => scope.branchTo i.target (branchIf .bne false)
  | .goto => scope.branchTo i.target fun label => [.jump label]
  | .returnValue kind => .code (popResult kind ++ scope.leave)
  | .returnVoid => .code scope.leave
  | .getstatic => .field .getStatic i.constant
  | .putstatic => .field .putStatic i.constant
  | .getfield => .field .getField i.constant
  | .putfield => .field .putField i.constant
  | .invokestatic => .invoke scope.header .static i.constant
  | .invokespecial => .invoke scope.header .special i.constant
  | .invokevirtual => .invoke scope.header .virtual i.constant
  | .new => .newObject i.constant
  | .newarray =>
    match BaseType.ofElementCode? i.operand with
    | some element => .newArray scope.header (FieldType.toText ⟨1, element, ""⟩) element.shift
    | none => .fail (.invalidElementCode i.operand)
  | .anewarray => .newObjectArray scope.header i.constant
  | .fconst _ | .dconst _ | .arithmetic .. | .bitwise .. | .negate _ | .convert .. | .lcmp
  | .floatCompare .. | .jsr | .ret | .tableswitch | .lookupswitch | .invokeinterface | .invokedynamic
  | .athrow | .checkcast | .instanceof | .monitorenter | .monitorexit | .multianewarray =>
    .fail (.unsupportedOpcode i.opcode.mnemonic)
  | .ldcW | .ldc2W | .loadShort .. | .storeShort .. | .wide | .gotoW | .jsrW | .reserved _ =>
    .fail (.unexpectedOpcode i.opcode.mnemonic)

end JvmAot
