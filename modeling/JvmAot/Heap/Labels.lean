import JvmAot.Heap.Basic

/-! # Labels of objects

Every object that is referred to gets a label, numbered in the order of first reference. The null
reference is written as 0 and a symbol as itself; neither takes a number. -/

namespace JvmAot

/-- The objects that have labels, in the order of their numbers. -/
structure LabelTable where
  order : Array Value := #[]
  deriving DecidableEq, Repr, Inhabited

namespace LabelTable

/-- The number of labels given out. -/
def size (t : LabelTable) : Nat :=
  t.order.size

/-- The label with a given number. -/
def label (number : Nat) : String :=
  "object" ++ toString number

/-- The label of a value that has one. -/
def find? (t : LabelTable) (v : Value) : Option String :=
  (t.order.idxOf? v).map label

/-- The label of a value, given out now if it has none. -/
def get (t : LabelTable) (v : Value) : String × LabelTable :=
  match v with
  | .null => ("0", t)
  | .symbol name => (name, t)
  | v =>
    match t.find? v with
    | some label => (label, t)
    | none => (label t.size, ⟨t.order.push v⟩)

/-- The labels of some values, given out in order. -/
def getAll (t : LabelTable) : List Value → List String × LabelTable
  | [] => ([], t)
  | v :: rest =>
    let (label, t) := t.get v
    let (labels, t) := t.getAll rest
    (label :: labels, t)

end LabelTable

end JvmAot
