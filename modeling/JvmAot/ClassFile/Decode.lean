import JvmAot.ClassFile.Basic
import JvmAot.ClassFile.Bytecode

/-! # Decoding class files

`ClassFile.decode` reads the constant pool, the declarations and the method bodies of a class file.
Attributes other than method bodies are skipped. -/

namespace JvmAot

open Reading

/-- Runs `item` for each index below `count` and collects the results. -/
def Decoder.repeated {α : Type} (count : Nat) (item : Nat → Decoder α) : Decoder (List α) :=
  (List.range count).mapM item

/-- Skips a list of attributes. -/
def skipAttributes : Decoder Unit := do
  let count ← u2
  (List.range count).forM fun _ => do
    let _ ← u2
    let _ ← take (← u4)
  Decoder.checkEnd

/-- Reads an entry of an exception table. -/
def ExceptionHandler.decode (pool : Pool) : Decoder ExceptionHandler := do
  let start ← u2
  let stop ← u2
  let handler ← u2
  let index ← u2
  let catchType ←
    if index = 0 then pure none else some <$> Decoder.ofExcept (pool.className index)
  return { start, stop, handler, catchType }

/-- Reads the body of a method. -/
def Code.decode (pool : Pool) : Decoder Code := do
  let maxStack ← u2
  let maxLocals ← u2
  let bytecode ← take (← u4)
  Decoder.checkEnd
  let instructions ← Decoder.ofExcept (Bytecode.decode pool bytecode)
  let handlers ← Decoder.repeated (← u2) fun _ => ExceptionHandler.decode pool
  skipAttributes
  return { maxStack, maxLocals, instructions, handlers }

namespace MethodDecl

/-- Reads `count` attributes of a method and returns its body. If there are several bodies, the last one
counts. -/
def decodeAttributes (pool : Pool) (name descriptor : String) :
    (count : Nat) → Option Code → Decoder (Option Code)
  | 0, code => pure code
  | count + 1, code => do
    let kind ←
      Decoder.within ("attribute of " ++ name) (Decoder.ofExcept (pool.text (← u2)))
    let body ← take (← u4)
    Decoder.checkEnd
    if kind = "Code" then
      let code ← Decoder.within ("code of " ++ name ++ descriptor)
        (Decoder.ofExcept ((Code.decode pool).decode body))
      decodeAttributes pool name descriptor count (some code)
    else decodeAttributes pool name descriptor count code

/-- Reads a method. -/
def decode (pool : Pool) : Decoder MethodDecl := do
  let flags : AccessFlags := ⟨← u2⟩
  let name ← Decoder.ofExcept (pool.text (← u2))
  let descriptor ← Decoder.ofExcept (pool.text (← u2))
  let code ← decodeAttributes pool name descriptor (← u2) none
  return { flags, name, descriptor, code }

end MethodDecl

/-- Reads field number `index` of a class. -/
def FieldDecl.decode (pool : Pool) (className : String) (index : Nat) : Decoder FieldDecl := do
  let place (field : String) : String := "field " ++ field ++ " of " ++ className
  let flags : AccessFlags := ⟨← u2⟩
  let name ← Decoder.within (place (toString index)) (Decoder.ofExcept (pool.text (← u2)))
  let descriptor ← Decoder.within (place name) (Decoder.ofExcept (pool.text (← u2)))
  Decoder.within (place name) skipAttributes
  return { flags, name, descriptor }

namespace ClassFile

/-- The number that every class file starts with. -/
def magic : Nat := 0xcafebabe

/-- The name of the superclass. Index 0 and an empty name both stand for none. -/
def decodeSuper (pool : Pool) (className : String) (index : Nat) : Except Failure (Option String) :=
  if index = 0 then .ok none
  else (Failure.locate ("super class of " ++ className) (pool.className index)).map fun name =>
    if name = "" then none else some name

/-- Reads a class file. -/
def decoder : Decoder ClassFile := do
  if (← u4) ≠ magic then Decoder.fail .invalidMagic
  let minor ← u2
  let major ← u2
  Decoder.checkEnd
  let pool ← Pool.decode
  let flags : AccessFlags := ⟨← u2⟩
  let thisIndex ← u2
  let superIndex ← u2
  Decoder.checkEnd
  let name ← Decoder.within "this class" (Decoder.ofExcept (pool.className thisIndex))
  let superName ← Decoder.ofExcept (decodeSuper pool name superIndex)
  let interfaces ← Decoder.repeated (← u2) fun i =>
    do Decoder.within ("interface " ++ toString i ++ " of " ++ name)
        (Decoder.ofExcept (pool.className (← u2)))
  let fields ← Decoder.repeated (← u2) (FieldDecl.decode pool name)
  let methods ← Decoder.repeated (← u2) fun i =>
    Decoder.within ("method " ++ toString i ++ " of " ++ name) (MethodDecl.decode pool)
  Decoder.within ("attributes of " ++ name) skipAttributes
  return { minor, major, flags, name, superName, interfaces, fields, methods }

/-- The class that a file holds. Bytes after the end of the class are not looked at. -/
def decode (bytes : ByteArray) : Except Failure ClassFile :=
  decoder.decode bytes.toList

end ClassFile

end JvmAot
