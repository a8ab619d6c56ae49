import JvmAot.ClassName

/-! # Assembler symbols

Class names, method names and descriptors hold characters that a symbol may not have. `Symbol.mangle`
drops opening parentheses and writes the other ones as `_` or `$`. -/

namespace JvmAot.Symbol

/-- What a character becomes in a symbol. -/
def mangleChar : Char → List Char
  | '(' => []
  | ')' | ';' | '/' | '.' => ['_']
  | '[' | '<' | '>' => ['$']
  | c => [c]

/-- A text as part of a symbol. -/
def mangle (text : String) : String :=
  String.ofList (text.toList.flatMap mangleChar)

/-- A class name as part of a symbol. -/
def ofClass (className : String) : String :=
  mangle (ClassName.slashed className)

/-- The symbol of a method body. -/
def ofMethod (className name descriptor : String) : String :=
  ofClass className ++ "_" ++ mangle name ++ "_" ++ mangle descriptor

/-- The symbol under which the vtable of a class is known to generated code and to the runtime. -/
def ofVtable (className : String) : String :=
  ofClass className ++ "_vtable"

/-- The runtime routine that allocates objects. It is called with the size in bytes in `a0` and the
vtable in `a1` and returns the object in `a0`. -/
def allocateMemory : String := "allocateMemory"

/-- The pool of static fields. -/
def staticFields : String := "staticFields"

/-- The end of the generated data, where the heap of the running program starts. -/
def dynamicHeap : String := "dynamicHeap"

/-- The label of the shared end of a method with the symbol `method`. -/
def returnLabel (method : String) : String :=
  method ++ "__return"

/-- The label of the branch target number `index` of a method with the symbol `method`. -/
def branchLabel (method : String) (index : Nat) : String :=
  method ++ "_" ++ toString index

end JvmAot.Symbol
