import JvmAot.Descriptor.BaseType
import JvmAot.Failure

/-! # Field types

A field type is an array dimension and a leaf, written as that many opening brackets, a letter and,
for a class, the class name and a semicolon: `I`, `[[C`, `Ljava/lang/String;`. -/

namespace JvmAot

/-- The type of a field, a parameter or an array element. -/
structure FieldType where
  /-- The number of array dimensions. -/
  dimension : Nat := 0
  base : BaseType
  /-- The class of a reference leaf in slash form, empty for other leaves. -/
  className : String := ""
  deriving DecidableEq, Repr, Inhabited

namespace FieldType

/-- Whether values are arrays. -/
def isArray (t : FieldType) : Bool :=
  0 < t.dimension

/-- Whether values are pointers to objects. -/
def isReference (t : FieldType) : Bool :=
  t.isArray || t.base == .reference

/-- The storage size of one value, in bytes. -/
def bytes (t : FieldType) : Nat :=
  if t.isReference then 4 else t.base.bytes

/-- The number of words a value takes in locals and on the operand stack. -/
def words (t : FieldType) : Nat :=
  if t.bytes = 8 then 2 else 1

theorem bytes_cases (t : FieldType) : t.bytes = 1 ∨ t.bytes = 2 ∨ t.bytes = 4 ∨ t.bytes = 8 := by
  unfold bytes
  split
  · decide
  · cases t.base <;> simp [BaseType.bytes]

/-- Whether loading a value extends its sign. -/
def isSigned (t : FieldType) : Bool :=
  !t.isReference && t.base.isSigned

/-- The type of the elements of an array type. -/
def element (t : FieldType) : FieldType :=
  { t with dimension := t.dimension - 1 }

/-- The written form of a field type, as characters. -/
def chars (t : FieldType) : List Char :=
  List.replicate t.dimension '[' ++ t.base.letter ::
    if t.base = .reference then t.className.toList ++ [';'] else []

/-- The written form of a field type. -/
def toText (t : FieldType) : String :=
  String.ofList t.chars

/-! ### Reading -/

/-- Why no field type can be read. -/
inductive Refusal where
  /-- The text ends before the type does, or a class has no name. -/
  | incomplete
  /-- The leaf is an unknown letter. -/
  | unknownLetter
  deriving DecidableEq, Repr

/-- Reads the rest of a field type after `dimension` opening brackets, and returns what follows it. -/
def readAfter (dimension : Nat) : List Char → Except Refusal (FieldType × List Char)
  | [] => .error .incomplete
  | '[' :: rest => readAfter (dimension + 1) rest
  | 'L' :: rest =>
    match rest.takeWhile (· != ';'), rest.dropWhile (· != ';') with
    | c :: name, _ :: rest => .ok (⟨dimension, .reference, String.ofList (c :: name)⟩, rest)
    | _, _ => .error .incomplete
  | c :: rest =>
    match BaseType.ofLetter c with
    | .other _ => .error .unknownLetter
    | base => .ok (⟨dimension, base, ""⟩, rest)

/-- Reads one field type off the front of a text, and returns what follows it. -/
def read (text : List Char) : Except Refusal (FieldType × List Char) :=
  readAfter 0 text

/-- Reading a field type takes at least one character. -/
theorem length_lt_of_readAfter {dimension : Nat} {text rest : List Char} {t : FieldType}
    (h : readAfter dimension text = .ok (t, rest)) : rest.length < text.length := by
  fun_induction readAfter dimension text with
  | case1 => simp at h
  | case2 dimension tail ih => exact Nat.lt_succ_of_lt (ih h)
  | case3 dimension tail c name d after hafter _ =>
    simp only [Except.ok.injEq, Prod.mk.injEq] at h
    have hle : (tail.dropWhile (· != ';')).length ≤ tail.length :=
      (List.dropWhile_sublist _).length_le
    rw [hafter] at hle
    obtain ⟨-, rfl⟩ := h
    simp only [List.length_cons] at hle ⊢
    omega
  | case4 => simp at h
  | case5 => simp at h
  | case6 =>
    simp only [Except.ok.injEq, Prod.mk.injEq] at h
    obtain ⟨-, rfl⟩ := h
    simp

/-- The failure for a text in which no type starts at `unread`. -/
def Refusal.toFailure (whole : String) (unread : List Char) : Refusal → Failure
  | .incomplete => Cause.invalidDescriptor whole none
  | .unknownLetter => Cause.invalidDescriptor whole (some (String.ofList unread))

/-- Reads a text that is one field type and nothing else. -/
def parse (text : String) : Except Failure FieldType :=
  match read text.toList with
  | .error refusal => .error (refusal.toFailure text text.toList)
  | .ok (t, []) => .ok t
  | .ok (_, _ :: _) => .error (Cause.invalidDescriptor text none : Failure)

end FieldType

/-- The name of a class without its package. An array type has the simple name of its leaf, with a
pair of brackets for each dimension. The leaf of an array type may again be an array type, so `fuel`
bounds how deep names are taken apart. -/
def simpleNameWithin : Nat → String → String
  | 0, name => ClassName.lastPart name
  | fuel + 1, name =>
    match name.toList with
    | '[' :: _ =>
      match FieldType.parse name with
      | .ok t =>
        let leaf := if t.base = .reference then simpleNameWithin fuel t.className else t.base.keyword
        leaf ++ String.join (List.replicate t.dimension "[]")
      | .error _ => ClassName.lastPart name
    | _ => ClassName.lastPart name

/-- The name of a class without its package, such as `Object[]` for `[Ljava/lang/Object;`. -/
def simpleName (name : String) : String :=
  simpleNameWithin name.length name

end JvmAot
