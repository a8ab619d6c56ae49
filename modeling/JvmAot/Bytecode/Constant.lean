import JvmAot.Text.Utf16

/-! # Constants

The operands that instructions take from the constant pool. -/

namespace JvmAot

/-- A constant that an instruction can refer to. -/
inductive ConstantValue where
  | integer (value : Int)
  /-- A number in single precision, as its bits. -/
  | float (bits : UInt32)
  | long (value : Int)
  /-- A number in double precision, as its bits. -/
  | double (bits : UInt64)
  /-- A string, as its 16-bit units. -/
  | string (units : List UInt16)
  /-- A class in slash form, or an array descriptor. -/
  | classRef (name : String)
  /-- A field, method or interface method, told apart by the tag of the pool entry. -/
  | member (tag : Nat) (owner name descriptor : String)
  /-- A constant that the compiler does not look into, such as a method handle. -/
  | uninterpreted (tag : Nat)
  deriving DecidableEq, Repr, Inhabited

/-- A constant with the pool slot it comes from. Two uses of one slot are the same constant; equal
constants in different slots are not. -/
structure Constant where
  slot : Nat := 0
  value : ConstantValue
  deriving DecidableEq, Repr, Inhabited

namespace ConstantValue

/-- The pool tag of a constant. -/
def tag : ConstantValue → Nat
  | integer _ => 3
  | float _ => 4
  | long _ => 5
  | double _ => 6
  | classRef _ => 7
  | string _ => 8
  | member tag .. => tag
  | uninterpreted tag => tag

/-- How messages name the type of a constant. -/
def typeName : ConstantValue → String
  | integer _ => "*classfile.IntegerConstant"
  | float _ => "*classfile.FloatConstant"
  | long _ => "*classfile.LongConstant"
  | double _ => "*classfile.DoubleConstant"
  | string _ => "*classfile.StringConstant"
  | classRef _ => "*classfile.ClassConstant"
  | member .. => "*classfile.MemberRef"
  | uninterpreted _ => "*classfile.OpaqueConstant"

end ConstantValue

/-- How messages name the type of an operand that may be missing. -/
def Constant.typeName? : Option Constant → String
  | some c => c.value.typeName
  | none => "<nil>"

end JvmAot
