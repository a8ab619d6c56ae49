import JvmAot.ClassName
import JvmAot.Files.Refusal
import JvmAot.Text.Quoted

/-! # Failures

A failure has a cause and the places it passed on its way out. Every cause is of one `Kind`, and
`Failure.message` is the only place where failures are put into words. -/

namespace JvmAot

/-- What a failure says about the input or about the compiler. -/
inductive Kind where
  /-- Bad or missing input: a class, member or descriptor that cannot be resolved. -/
  | resolution
  /-- A valid feature of the class file format that is not compiled. -/
  | notYetImplemented
  /-- A broken contract between two parts of the compiler. -/
  | invariant
  /-- Anything else, such as an error of the file system. -/
  | other
  /-- A use of something that does not exist. It ends the run and has no message. -/
  | fault
  deriving DecidableEq, Repr

namespace Kind

/-- The words a message of this kind starts with. -/
def label? : Kind → Option String
  | resolution => some "resolution error"
  | notYetImplemented => some "not yet implemented"
  | invariant => some "invariant violation"
  | other => none
  | fault => none

end Kind

/-- Why something failed. Class names are in slash form; texts that describe a type or an opcode are
the ones shown in messages. -/
inductive Cause where
  /-- A failure reported by a caller in its own words. -/
  | reported (kind : Kind) (text : String)
  /-- A malformed descriptor; `unread` is what starts with an unknown type letter. -/
  | invalidDescriptor (descriptor : String) (unread : Option String)
  /-- No single instruction loads a value of this type. -/
  | noLoad (type : String)
  /-- No single instruction stores a value of this type. -/
  | noStore (type : String)
  /-- Allocation from a sealed field allocator. -/
  | fieldsSealed
  /-- A child of a field allocator that is not sealed yet. -/
  | fieldsNotSealed
  /-- Allocation from a sealed vtable allocator. -/
  | vtableSealed
  /-- A child of a vtable allocator that is not sealed yet. -/
  | vtableNotSealed
  /-- The first four bytes are not those of a class file. -/
  | invalidMagic
  /-- A class file that ends too early. -/
  | truncated
  /-- A constant pool that ends too early. -/
  | unexpectedEnd
  /-- Bytes that are not modified UTF-8. -/
  | invalidUtf8
  /-- An unknown tag in the constant pool. -/
  | invalidTag (tag entry : Nat)
  /-- No pool entry with the expected tag. -/
  | wrongEntry (index expected : Nat)
  /-- No pool entry at all. -/
  | noEntry (index : Nat)
  /-- A pool entry that no instruction can load. -/
  | notLoadable (index tag : Nat)
  /-- A byte that is no opcode. -/
  | invalidOpcode (byte : Nat)
  /-- An opcode that has no wide form. -/
  | invalidWide (byte : Nat)
  /-- A method with exception handlers. -/
  | exceptionHandlers (name descriptor : String)
  /-- A method with more parameter words than argument registers. -/
  | tooManyParameters (symbol : String) (words : Nat)
  /-- A call with more argument words than argument registers. -/
  | tooManyArguments (words : Nat)
  /-- An instruction that is not compiled. -/
  | unsupportedOpcode (mnemonic : String)
  /-- A load of a constant that is not compiled. -/
  | unsupportedConstant (type : String)
  /-- An opcode that decoding never yields. -/
  | unexpectedOpcode (mnemonic : String)
  /-- An operand that is not what the instruction needs. -/
  | wrongOperand (type expected : String)
  /-- A branch to an offset that has no label. -/
  | noBranchLabel (target : Int)
  /-- An unknown element type code. -/
  | invalidElementCode (code : Int)
  /-- A static access to an instance field or the other way round. -/
  | fieldStaticMismatch (owner name : String)
  /-- A static call of an instance method or the other way round. -/
  | methodStaticMismatch (owner name descriptor : String)
  /-- A virtual call of a method that has no vtable slot. -/
  | notVirtual (owner name descriptor : String)
  /-- A value that is no runtime object. -/
  | notSerializable (type : String)
  /-- A value for a field in the word of the vtable pointer. -/
  | overlapsVtable (className field : String)
  /-- A value for a field that the class does not have. -/
  | noSuchField (className field : String)
  /-- A value that does not fit a primitive field. -/
  | notPrimitive (className field type : String)
  /-- An array type where a class is needed. -/
  | arrayAsClass (name : String)
  /-- A new class after resolution was closed. -/
  | classResolutionClosed (name : String)
  /-- A new array type after resolution was closed. -/
  | arrayResolutionClosed (descriptor : String)
  /-- A class that is its own superclass, directly or through others. -/
  | circularSuperclass (name : String)
  /-- A descriptor that is not of an array type. -/
  | notAnArray (descriptor : String)
  /-- An array type before its superclass was resolved. -/
  | rootNotResolved (name : String)
  /-- A field that neither the class nor its superclasses have. -/
  | fieldNotFound (className name : String)
  /-- A method that neither the class nor its superclasses have. -/
  | methodNotFound (className name descriptor : String)
  /-- A string class without a field for the characters. -/
  | noCharactersField (className : String)
  /-- A class that is in no directory of the class path. -/
  | classNotFound (name : String)
  /-- A class loader that yields more classes than it announced. -/
  | loaderExhausted
  /-- A refusal of the file system. -/
  | file (operation path : String) (reason : Refusal)
  /-- A name that is no log scope. -/
  | notALogScope
  /-- A compilation that was called off before it began. -/
  | canceled
  /-- A configuration without an entry class. -/
  | noEntryClass
  /-- A directory without a project file. -/
  | noProject (projectFile directory : String)
  /-- A project file that does not parse or has values of wrong types. -/
  | malformedProject (path : String)
  /-- A key that a project file may not have. -/
  | unknownKey (key path : String)
  /-- A use of something that does not exist. -/
  | absent (what : String)
  deriving DecidableEq, Repr

namespace Cause

/-- The kind of a cause. -/
def kind : Cause → Kind
  | reported kind _ => kind
  | invalidDescriptor .. | invalidMagic | truncated | invalidUtf8 | invalidTag .. | wrongEntry ..
  | noEntry _ | notLoadable .. | invalidOpcode _ | invalidWide _ | invalidElementCode _
  | fieldStaticMismatch .. | methodStaticMismatch .. | notVirtual .. | circularSuperclass _
  | notAnArray _ | fieldNotFound .. | methodNotFound .. | noCharactersField _ | classNotFound _ =>
    .resolution
  | exceptionHandlers .. | tooManyParameters .. | tooManyArguments _ | unsupportedOpcode _
  | unsupportedConstant _ => .notYetImplemented
  | noLoad _ | noStore _ | fieldsSealed | fieldsNotSealed | vtableSealed | vtableNotSealed
  | unexpectedOpcode _ | wrongOperand .. | noBranchLabel _ | notSerializable _ | overlapsVtable ..
  | noSuchField .. | notPrimitive .. | arrayAsClass _ | classResolutionClosed _
  | arrayResolutionClosed _ | rootNotResolved _ => .invariant
  | unexpectedEnd | file .. | notALogScope | canceled | noEntryClass | noProject ..
  | malformedProject _ | unknownKey .. => .other
  | loaderExhausted | absent _ => .fault

/-- A member in a message: dotted class name, dot, member name. -/
def member (owner name : String) : String :=
  ClassName.dotted owner ++ "." ++ name

/-- The cause in words, without the label of its kind. -/
def text : Cause → String
  | reported _ text => text
  | invalidDescriptor descriptor none => "invalid descriptor: " ++ descriptor
  | invalidDescriptor descriptor (some unread) =>
    "invalid descriptor: " ++ descriptor ++ " (at " ++ quote unread ++ ")"
  | noLoad type => "no load instruction for " ++ type
  | noStore type => "no store instruction for " ++ type
  | fieldsSealed => "this field allocator has been sealed"
  | fieldsNotSealed => "cannot use an unsealed field allocator as parent"
  | vtableSealed => "this vtable allocator has been sealed"
  | vtableNotSealed => "cannot use an unsealed vtable allocator as parent"
  | invalidMagic => "invalid magic number"
  | truncated => "truncated class file"
  | unexpectedEnd => "unexpected EOF"
  | invalidUtf8 => "invalid modified UTF-8"
  | invalidTag tag entry =>
    "invalid constant pool tag: tag " ++ toString tag ++ " at constant pool entry " ++ toString entry
  | wrongEntry index expected =>
    "invalid constant pool index: index " ++ toString index ++ ", expected tag " ++ toString expected
  | noEntry index => "invalid constant pool index: index " ++ toString index
  | notLoadable index tag =>
    "invalid constant pool index: index " ++ toString index ++ " is not loadable (tag " ++
      toString tag ++ ")"
  | invalidOpcode byte => "invalid opcode: " ++ toString byte
  | invalidWide byte => "invalid opcode: wide " ++ toString byte
  | exceptionHandlers name descriptor => "exception handlers in " ++ name ++ descriptor
  | tooManyParameters symbol words => symbol ++ " takes " ++ toString words ++ " argument words"
  | tooManyArguments words => "call with " ++ toString words ++ " argument words"
  | unsupportedOpcode mnemonic => mnemonic
  | unsupportedConstant type => "ldc of " ++ type
  | unexpectedOpcode mnemonic => "unexpected opcode " ++ mnemonic
  | wrongOperand type expected => "operand is " ++ type ++ ", not " ++ expected
  | noBranchLabel target => "no label for branch target " ++ toString target
  | invalidElementCode code => "invalid newarray element type " ++ toString code
  | fieldStaticMismatch owner name => "field " ++ member owner name ++ ": static mismatch"
  | methodStaticMismatch owner name descriptor =>
    "method " ++ member owner name ++ descriptor ++ ": static mismatch"
  | notVirtual owner name descriptor =>
    "method " ++ member owner name ++ descriptor ++ " is not virtual"
  | notSerializable type => "cannot serialize " ++ type
  | overlapsVtable className field =>
    "cannot serialize " ++ className ++ ": field " ++ field ++ " overlaps the vtable pointer"
  | noSuchField className field => "cannot serialize " ++ className ++ ": no field " ++ field
  | notPrimitive className field type =>
    "cannot serialize " ++ className ++ "." ++ field ++
      ": invariant violation: not a primitive value: " ++ type
  | arrayAsClass name => "cannot resolve array type " ++ name ++ " as a class"
  | classResolutionClosed name =>
    "class resolution is closed (trying to resolve " ++ ClassName.dotted name ++ ")"
  | arrayResolutionClosed descriptor =>
    "class resolution is closed (trying to resolve " ++ descriptor ++ ")"
  | circularSuperclass name => "circular superclass chain at " ++ ClassName.dotted name
  | notAnArray descriptor => "not an array type: " ++ descriptor
  | rootNotResolved name => name ++ " must be resolved before array types"
  | fieldNotFound className name => "field not found: " ++ member className name
  | methodNotFound className name descriptor =>
    "method not found: " ++ member className name ++ descriptor
  | noCharactersField className => ClassName.dotted className ++ " declares no char[] field"
  | classNotFound name => "class not found: " ++ ClassName.dotted name
  | loaderExhausted => "the class loader yields more classes than it announced"
  | file operation path reason => operation ++ " " ++ path ++ ": " ++ reason.text
  | notALogScope => "not a log scope"
  | canceled => "context canceled"
  | noEntryClass => "entry class not set"
  | noProject projectFile directory => "no " ++ projectFile ++ " found in " ++ directory
  | malformedProject path => "parse error in " ++ path
  | unknownKey key path => "unknown key " ++ quote key ++ " in " ++ path
  | absent what => what

/-- The cause in words, after the label of its kind if it has one. -/
def message (c : Cause) : String :=
  match c.kind.label? with
  | some label => label ++ ": " ++ c.text
  | none => c.text

end Cause

/-- A cause, and what was being done when it arose, outermost first. -/
structure Failure where
  context : List String := []
  cause : Cause
  deriving DecidableEq, Repr

namespace Failure

instance : Coe Cause Failure := ⟨fun cause => { cause }⟩

/-- The kind of a failure is that of its cause. -/
def kind (f : Failure) : Kind :=
  f.cause.kind

/-- The failure seen from one place further out. -/
def within (place : String) (f : Failure) : Failure :=
  { f with context := place :: f.context }

/-- The whole text: each place from the outside in, then the cause. -/
def message (f : Failure) : String :=
  String.intercalate ": " (f.context ++ [f.cause.message])

/-- Whether a guard at the border of the compiler turns this failure back into an ordinary result.
It does so for broken contracts and lets everything else pass. -/
def isGuarded (f : Failure) : Bool :=
  f.kind == .invariant

@[simp] theorem kind_within (place : String) (f : Failure) : (f.within place).kind = f.kind := rfl

/-- Names the place of any failure of `r`. -/
def locate {α : Type} (place : String) (r : Except Failure α) : Except Failure α :=
  r.mapError (within place)

end Failure

end JvmAot
