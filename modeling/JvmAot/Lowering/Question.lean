import JvmAot.Asm.Line
import JvmAot.Bytecode.Constant
import JvmAot.Descriptor.FieldType

/-! # Questions about other classes

Some instructions depend on classes other than the one being compiled. Lowering such an instruction
stops at a question; a `Context` answers it, perhaps by resolving more classes, and the instruction is
lowered with the answer. No instruction needs more than one. -/

namespace JvmAot

/-- Where a field is stored. -/
structure FieldRef where
  /-- The byte offset in the object, or in the pool of static fields. -/
  offset : Int
  type : FieldType
  isStatic : Bool
  deriving DecidableEq, Repr, Inhabited

/-- How a method is called. -/
structure MethodRef where
  /-- The class that declares the method. -/
  className : String
  /-- The vtable slot of the method, if it has one. -/
  slot : Option Nat
  isStatic : Bool
  deriving DecidableEq, Repr, Inhabited

/-- What lowering needs to know about other classes. -/
inductive Question where
  /-- The field that `owner` declares or inherits. -/
  | field (owner name : String)
  /-- The method that `owner` declares or inherits. -/
  | method (owner name descriptor : String)
  /-- The size of the instances of a class in bytes. -/
  | instanceSize (className : String)
  /-- The label of the vtable of an array type. -/
  | arrayVtable (descriptor : String)
  /-- The label of the object for the string constant in a pool slot of the class being compiled. -/
  | stringLabel (slot : Nat) (units : List UInt16)
  deriving DecidableEq, Repr, Inhabited

/-- The type of the answer to a question. -/
abbrev Question.Answer : Question → Type
  | field .. => FieldRef
  | method .. => MethodRef
  | instanceSize _ => Int
  | arrayVtable _ => String
  | stringLabel .. => String

/-- Answers questions in a state of type `σ`. The state may change whether or not there is an answer. -/
structure Context (σ : Type) where
  answer : (q : Question) → σ → Except Failure q.Answer × σ

/-- The code of an instruction, up to a failure if there is one. -/
structure Lowered where
  code : List Instr
  failure : Option Failure := none
  deriving DecidableEq, Repr, Inhabited

/-- The code of an instruction, or a question and the code for each answer. -/
inductive Lowering where
  | done (result : Lowered)
  | ask (q : Question) (next : q.Answer → Lowered)

namespace Lowering

/-- Code that depends on no other class. -/
def code (code : List Instr) : Lowering :=
  done { code }

/-- A failure before any code. -/
def fail (cause : Cause) : Lowering :=
  done { code := [], failure := some cause }

/-- The code of an instruction once its question is answered. -/
def run {σ : Type} (context : Context σ) : Lowering → σ → Lowered × σ
  | done result, state => (result, state)
  | ask q next, state =>
    match context.answer q state with
    | (.ok answer, state) => (next answer, state)
    | (.error failure, state) => ({ code := [], failure := some failure }, state)

end Lowering

end JvmAot
