import JvmAot.Heap.Block

/-! # Writing the object graph

Objects are written in the order of their labels. Writing one can give labels to more objects, which
are then written too, until every label has its data. -/

namespace JvmAot

/-- The state of writing: the heap, which gains the name strings of metadata, the labels given out, and
the text so far. -/
structure Emission where
  heap : Heap
  labels : LabelTable
  lines : Array Line := #[]
  deriving Inhabited

namespace Emission

/-- Makes sure that metadata has a string object with its name. -/
def ensureName (r : ObjectResolver) (e : Emission) (id : ObjectId) (m : Metadata) :
    Except Failure (Metadata × Emission) :=
  match m.nameString with
  | some _ => .ok (m, e)
  | none =>
    match r.newString m.name e.heap with
    | .error failure => .error failure
    | .ok (string, heap) =>
      let m := { m with nameString := some string }
      .ok (m, { e with heap := heap.set id (.metadata m) })

/-- Writes a block. -/
def write (e : Emission) (b : Block) : Emission × Option Failure :=
  let (lines, labels) := DataItem.lines e.labels b.items
  ({ e with labels, lines := e.lines ++ lines }, b.failure)

/-- Writes the data of a value that has a label. -/
def value (r : ObjectResolver) (e : Emission) (v : Value) : Emission × Option Failure :=
  match v with
  | .null => e.write { items := [.references [.null]] }
  | .object id =>
    match e.heap.get? id with
    | some (.metadata m) =>
      match e.ensureName r id m with
      | .error failure => (e, some failure)
      | .ok (m, e) => e.write (e.heap.block r (.metadata m))
    | some object => e.write (e.heap.block r object)
    | none => (e, some (Cause.absent "no such object" : Failure))
  | .missingVtable => (e, some (Cause.absent "an interface has no vtable" : Failure))
  | v => (e, some (Cause.notSerializable (e.heap.typeName v) : Failure))

/-- Writes the objects with labels from number `next` on, at most `fuel` of them. -/
def run (r : ObjectResolver) : (fuel next : Nat) → Emission → Emission × Option Failure
  | 0, _, e => (e, some (Cause.absent "more objects than the heap can refer to" : Failure))
  | fuel + 1, next, e =>
    match e.labels.order[next]? with
    | none => (e, none)
    | some v =>
      match value r { e with lines := e.lines.push (.label (LabelTable.label next)) } v with
      | (e, some failure) => (e, some failure)
      | (e, none) => run r fuel (next + 1) e

/-- A bound on the labels that writing can give out. Each object of the heap and each value that one
holds may get a label, and each metadata may gain a string of two objects. -/
def bound (e : Emission) : Nat :=
  e.labels.size + 4 * e.heap.weight + 2

/-- Writes all objects that have labels and all that they refer to. -/
def all (r : ObjectResolver) (e : Emission) : Emission × Option Failure :=
  run r (e.bound + 1) 0 e

end Emission

end JvmAot
