import JvmAot.Descriptor.FieldType

/-! # Method types

A method type is written as its parameter types in parentheses and its result type, with `V` for no
result: `(I[Ljava/lang/String;)V`. -/

namespace JvmAot

/-- The parameter types and the result type of a method. -/
structure MethodType where
  parameters : List FieldType
  /-- The type of the result, `none` if there is no result. -/
  result : Option FieldType
  deriving DecidableEq, Repr, Inhabited

namespace MethodType

/-- The number of words the parameters take, without the receiver. -/
def parameterWords (t : MethodType) : Nat :=
  (t.parameters.map FieldType.words).foldr (· + ·) 0

/-- The number of words the result takes. -/
def resultWords (t : MethodType) : Nat :=
  match t.result with
  | none => 0
  | some result => result.words

/-- The written form of a method type. -/
def toText (t : MethodType) : String :=
  "(" ++ String.join (t.parameters.map FieldType.toText) ++ ")" ++
    match t.result with
    | none => "V"
    | some result => result.toText

/-! ### Reading -/

/-- Reads parameter types up to the closing parenthesis and returns what follows it. A refusal comes
with the text it arose at. -/
def readParameters :
    List Char → Except (FieldType.Refusal × List Char) (List FieldType × List Char)
  | [] => .error (.incomplete, [])
  | c :: tail =>
    if c = ')' then .ok ([], tail)
    else match h : FieldType.read (c :: tail) with
      | .error refusal => .error (refusal, c :: tail)
      | .ok (t, rest) =>
        have : rest.length < (c :: tail).length := FieldType.length_lt_of_readAfter h
        match readParameters rest with
        | .error refusal => .error refusal
        | .ok (types, rest) => .ok (t :: types, rest)
termination_by text => text.length
decreasing_by exact this

/-- Reads a result type that is all of `text`. -/
def readResult (text : List Char) : Option (Option FieldType) :=
  if text = ['V'] then some none
  else match FieldType.read text with
    | .ok (t, []) => some (some t)
    | _ => none

/-- Reads a text that is one method type and nothing else. A text of fewer than three bytes is too
short for one, whatever it holds. -/
def parse (text : String) : Except Failure MethodType :=
  let invalid : Except Failure MethodType := .error (Cause.invalidDescriptor text none : Failure)
  match text.toList with
  | '(' :: rest =>
    if text.utf8ByteSize < 3 then invalid
    else match readParameters rest with
      | .error (refusal, unread) => .error (refusal.toFailure text unread)
      | .ok (parameters, rest) =>
        match readResult rest with
        | some result => .ok ⟨parameters, result⟩
        | none => invalid
  | _ => invalid

/-- The part of a written method type up to its first closing parenthesis, or all of it. Two methods
of one name override each other if they agree in this part, whatever their results are. -/
def parameterPart (text : String) : String :=
  match text.toList.dropWhile (· != ')') with
  | [] => text
  | _ :: _ => String.ofList (text.toList.takeWhile (· != ')') ++ [')'])

end MethodType

end JvmAot
