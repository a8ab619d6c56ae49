/-! # Base types

The leaf types of descriptors. Each is written as one letter; a letter that names no type is kept and
treated as one word without a sign. -/

namespace JvmAot

/-- The leaf type of a descriptor. -/
inductive BaseType where
  | boolean
  | byte
  | short
  | char
  | int
  | float
  | long
  | double
  /-- A pointer to an object. -/
  | reference
  /-- A letter that names no type. -/
  | other (letter : Char)
  deriving DecidableEq, Repr, Inhabited

namespace BaseType

/-- The letter of a base type. -/
def letter : BaseType → Char
  | boolean => 'Z'
  | byte => 'B'
  | short => 'S'
  | char => 'C'
  | int => 'I'
  | float => 'F'
  | long => 'J'
  | double => 'D'
  | reference => 'L'
  | other letter => letter

/-- The base type with a given letter. -/
def ofLetter : Char → BaseType
  | 'Z' => boolean
  | 'B' => byte
  | 'S' => short
  | 'C' => char
  | 'I' => int
  | 'F' => float
  | 'J' => long
  | 'D' => double
  | 'L' => reference
  | letter => other letter

/-- The storage size of one value, in bytes. -/
def bytes : BaseType → Nat
  | boolean | byte => 1
  | short | char => 2
  | long | double => 8
  | int | float | reference | other _ => 4

/-- Whether a value narrower than a word is sign-extended when it is loaded. -/
def isSigned : BaseType → Bool
  | byte | short | int | long => true
  | _ => false

/-- The binary logarithm of `bytes`: by how much an index is shifted to address an element. -/
def shift : BaseType → Nat
  | boolean | byte => 0
  | short | char => 1
  | long | double => 3
  | int | float | reference | other _ => 2

/-- The name of a primitive type in source text, empty for all else. -/
def keyword : BaseType → String
  | boolean => "boolean"
  | byte => "byte"
  | short => "short"
  | char => "char"
  | int => "int"
  | float => "float"
  | long => "long"
  | double => "double"
  | reference | other _ => ""

/-- The element type that the operand of an array allocation stands for. -/
def ofElementCode? (code : Int) : Option BaseType :=
  match code with
  | 4 => some boolean
  | 5 => some char
  | 6 => some float
  | 7 => some double
  | 8 => some byte
  | 9 => some short
  | 10 => some int
  | 11 => some long
  | _ => none

end BaseType

end JvmAot
