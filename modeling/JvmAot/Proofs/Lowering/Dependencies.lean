import JvmAot.Lowering.Method
import JvmAot.Proofs.Descriptor.Reading

/-! # The classes that an instruction depends on

`Instruction.references` reads them off the instruction, and `Question.classes` off a question. An instruction that
has code asks about exactly the classes that it refers to (`asks_lower`). -/

namespace JvmAot

/-- The class that a type comes down to below its array dimensions, if it is one. -/
def FieldType.leafClasses (t : FieldType) : List String :=
  if t.base = .reference then [t.className] else []

/-- The class that a descriptor comes down to. -/
def leafClasses (descriptor : String) : List String :=
  match FieldType.parse descriptor with
  | .ok t => t.leafClasses
  | .error _ => []

theorem leafClasses_toText {t : FieldType} (h : t.IsValid) : leafClasses t.toText = t.leafClasses := by
  rw [leafClasses, FieldType.parse_toText h]

/-- The class whose member a constant names. -/
def Constant.owners : Option Constant → List String
  | some { value := .member _ owner _ _, .. } => [owner]
  | _ => []

/-- The class or array type that a constant names. -/
def Constant.classNames : Option Constant → List String
  | some { value := .classRef name, .. } => [name]
  | _ => []

/-- The classes that an instruction refers to: the owner of a field or method, the class of a new object, and the class
that the elements of a new array come down to. -/
def Instruction.references (i : Instruction) : List String :=
  match i.opcode with
  | .getstatic | .putstatic | .getfield | .putfield | .invokestatic | .invokespecial | .invokevirtual =>
    Constant.owners i.constant
  | .new => Constant.classNames i.constant
  | .anewarray => (Constant.classNames i.constant).flatMap fun name => leafClasses (Lowering.arrayOf name)
  | _ => []

/-- The classes that the body of a method refers to. Native methods and initializers have no body to compile. -/
def MethodDecl.references (d : MethodDecl) : List String :=
  match d.body? with
  | some code => code.instructions.flatMap Instruction.references
  | none => []

/-- The classes that the bodies of a class refer to. -/
def ClassFile.references (file : ClassFile) : List String :=
  file.methods.flatMap MethodDecl.references

/-- The classes that a question is about. -/
def Question.classes : Question → List String
  | .field owner _ | .method owner _ _ | .instanceSize owner => [owner]
  | .arrayVtable descriptor => leafClasses descriptor
  | .stringLabel .. => []

namespace Lowering

/-- Code depends on the given classes, and a question is about them. -/
def Asks (names : List String) : Lowering → Prop
  | .done result => result.failure = none → names = []
  | .ask q _ => q.classes = names

theorem asks_code (code : List Instr) : (Lowering.code code).Asks [] :=
  fun _ => rfl

theorem asks_fail (cause : Cause) (names : List String) : (Lowering.fail cause).Asks names :=
  nofun

theorem asks_constant (c : Option Constant) : (constant c).Asks [] := by
  unfold constant
  split
  · exact asks_code _
  · exact asks_code _
  · rfl
  · exact asks_fail _ _

theorem asks_field (access : FieldAccess) (c : Option Constant) : (field access c).Asks (Constant.owners c) := by
  unfold field
  split
  · rfl
  · exact asks_fail _ _

theorem asks_invoke (header : Int) (how : Invocation) (c : Option Constant) :
    (invoke header how c).Asks (Constant.owners c) := by
  unfold invoke
  split
  · split
    · exact nofun
    dsimp only
    generalize (if (how == Invocation.static) = true then _ else _) = words
    split
    · exact asks_fail _ _
    · rfl
  · exact asks_fail _ _

theorem asks_newObject (c : Option Constant) : (newObject c).Asks (Constant.classNames c) := by
  unfold newObject
  split
  · rfl
  · exact asks_fail _ _

theorem asks_newObjectArray (header : Int) (c : Option Constant) : (newObjectArray header c).Asks
    ((Constant.classNames c).flatMap fun name => leafClasses (arrayOf name)) := by
  unfold newObjectArray
  split
  · rename_i slot name
    exact (List.append_nil (leafClasses (arrayOf name))).symm
  · exact asks_fail _ _

/-- No class stands behind an array of numbers. -/
theorem asks_newArray (header operand : Int) {element : BaseType} (h : BaseType.ofElementCode? operand = some element) :
    (newArray header (FieldType.toText ⟨1, element, ""⟩) element.shift).Asks [] := by
  have helement : element ≠ .reference ∧ FieldType.IsValid ⟨1, element, ""⟩ := by
    unfold BaseType.ofElementCode? at h
    split at h <;> cases h <;> exact ⟨nofun, rfl⟩
  exact (leafClasses_toText helement.2).trans (if_neg helement.1)

end Lowering

namespace Scope

theorem asks_branchTo (scope : Scope) (target : Int) (code : String → List Instr) :
    (scope.branchTo target code).Asks [] := by
  unfold branchTo
  split
  · exact Lowering.asks_code _
  · exact Lowering.asks_fail _ _

theorem asks_lower (scope : Scope) (i : Instruction) : (scope.lower i).Asks i.references := by
  obtain ⟨offset, opcode, operand, increment, target, switchTargets, constant⟩ := i
  cases opcode with
  | arithmetic op kind | bitwise op kind =>
    cases kind with
    | int => exact Lowering.asks_code _
    | _ => exact Lowering.asks_fail _ _
  | negate kind =>
    cases kind with
    | int => exact Lowering.asks_code _
    | _ => exact Lowering.asks_fail _ _
  | narrow kind => cases kind <;> exact Lowering.asks_code _
  | ifZero _ | ifInt _ | ifSame | ifNotSame | ifnull | ifnonnull | goto => exact asks_branchTo _ _ _
  | ldc => exact Lowering.asks_constant _
  | getstatic | putstatic | getfield | putfield => exact Lowering.asks_field _ _
  | invokestatic | invokespecial | invokevirtual => exact Lowering.asks_invoke scope.header _ _
  | new => exact Lowering.asks_newObject _
  | newarray =>
    simp only [lower]
    split
    · rename_i hcode
      exact Lowering.asks_newArray scope.header operand hcode
    · exact Lowering.asks_fail _ _
  | anewarray => exact Lowering.asks_newObjectArray scope.header _
  | nop | aconstNull | iconst _ | lconst _ | bipush | sipush | load _ | store _ | iinc | arrayLoad _ | arrayStore _
  | arraylength | pop | pop2 | dup | dupX1 | dupX2 | dup2 | dup2X1 | dup2X2 | swap | returnValue _ | returnVoid =>
    exact Lowering.asks_code _
  | _ => exact Lowering.asks_fail _ _

end Scope

end JvmAot
