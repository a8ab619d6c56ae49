import JvmAot.Lowering.Instruction

/-! # Method bodies

A method becomes its label, the code that opens its frame, the code of its instructions with a label in
front of every branch target, and the shared end that all returns jump to. -/

namespace JvmAot

/-- The assembly text of a method, up to a failure if there is one, and the state that is left. -/
structure Listing (σ : Type) where
  lines : List Line
  failure : Option Failure
  state : σ
  deriving Inhabited

namespace Listing

variable {σ : Type}

/-- Puts lines in front. -/
def prepend (lines : List Line) (t : Listing σ) : Listing σ :=
  { t with lines := lines ++ t.lines }

/-- Appends lines unless there is a failure. -/
def append (t : Listing σ) (lines : List Line) : Listing σ :=
  match t.failure with
  | some _ => t
  | none => { t with lines := t.lines ++ lines }

/-- Names the place of the failure. -/
def within (place : String) (t : Listing σ) : Listing σ :=
  { t with failure := t.failure.map (Failure.within place) }

end Listing

/-- The branch targets of some instructions in ascending order, without repetition. -/
def branchTargets (instructions : List Instruction) : List Int :=
  (instructions.flatMap Instruction.targets).eraseDups.mergeSort

namespace Scope

variable {σ : Type}

/-- The label lines in front of the instruction at `offset`. -/
def labelLines (scope : Scope) (offset : Int) : List Line :=
  (scope.label? offset).toList.map Line.label

/-- The assembly text of a list of instructions. -/
def listing (scope : Scope) (context : Context σ) : List Instruction → σ → Listing σ
  | [], state => { lines := [], failure := none, state }
  | i :: rest, state =>
    let (lowered, state) := (scope.lower i).run context state
    let lines := scope.labelLines i.offset ++ lowered.code.map Line.instr
    match lowered.failure with
    | some failure => { lines, failure := some (failure.within i.place), state }
    | none => (scope.listing context rest state).prepend lines

end Scope

namespace MethodDecl

variable {σ : Type}

/-- The number of argument words, with one for the receiver. -/
def argumentWords (m : MethodDecl) (type : MethodType) : Nat :=
  if m.flags.isStatic then type.parameterWords else type.parameterWords + 1

/-- The assembly text of a method with the body `code`. -/
def bodyListing (context : Context σ) (header : Int) (symbol : String) (argumentWords : Nat)
    (code : Code) (state : σ) : Listing σ :=
  if Register.arguments.length < argumentWords then
    { lines := [], failure := some (Cause.tooManyParameters symbol argumentWords : Failure), state }
  else
    let scope : Scope := { symbol, targets := branchTargets code.instructions, header }
    let opening := .label symbol :: (Template.enter code.maxLocals argumentWords).map Line.instr
    let closing := .label (Symbol.returnLabel symbol) ::
      (Template.leave code.maxLocals).map Line.instr ++ [.blank]
    ((scope.listing context code.instructions state).prepend opening).append closing

/-- The assembly text of a method that the class `className` declares. Abstract and native methods and
initializers have none. -/
def listing (context : Context σ) (header : Int) (className : String) (m : MethodDecl) (state : σ) :
    Listing σ :=
  match m.body? with
  | none => { lines := [], failure := none, state }
  | some code =>
    match MethodType.parse m.descriptor with
    | .error failure => { lines := [], failure := some failure, state }
    | .ok type =>
      if code.handlers ≠ [] then
        { lines := [], failure := some (Cause.exceptionHandlers m.name m.descriptor : Failure), state }
      else
        (bodyListing context header (Symbol.ofMethod className m.name m.descriptor)
          (m.argumentWords type) code state).within ("method " ++ m.name ++ m.descriptor)

end MethodDecl

end JvmAot
