/-! # Class names

A class name is a path of packages. Class files separate its parts by slashes, people by dots; both
name the same class. -/

namespace JvmAot.ClassName

/-- The slash form of a name. -/
def slashed (name : String) : String :=
  name.map fun c => if c == '.' then '/' else c

/-- The dotted form of a name, used in messages. -/
def dotted (name : String) : String :=
  name.map fun c => if c == '/' then '.' else c

/-- Whether a name is a descriptor of an array type. -/
def isArray (name : String) : Bool :=
  name.toList.head? == some '['

theorem slashed_slashed (name : String) : slashed (slashed name) = slashed name := by
  simp only [slashed, String.map_map]
  congr 1
  funext c
  by_cases h : c = '.' <;> simp [h]

theorem isArray_slashed (name : String) : isArray (slashed name) = isArray name := by
  simp only [isArray, slashed, String.toList_map]
  cases name.toList with
  | nil => rfl
  | cons c _ => by_cases h : c = '.' <;> simp [h]

/-- The part of a slash-form name after its last slash. -/
def lastPart (name : String) : String :=
  String.ofList (name.toList.reverse.takeWhile (· != '/')).reverse

end JvmAot.ClassName
