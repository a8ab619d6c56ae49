import JvmAot.Toml.Statements
import Std.Data.HashMap
import Std.Data.HashSet

/-! # TOML documents

A document is what the statements of a file say together: tables with their settings. A setting or a
header can mention tables on the way to the one that it is about. Such a table is implicit until
something else defines it. -/

namespace JvmAot.Toml

/-- What a name stands for in a table. -/
inductive Item where
  | value (value : Expr)
  | table (entries : List (String × Item))
  /-- An array of tables, of which the last one is open. -/
  | tables (elements : List (List (String × Item)))
  deriving Inhabited

/-- The names of a table with what they stand for. -/
abbrev Table := List (String × Item)

namespace Table

/-- Sets what a name stands for. A new name comes last. -/
def put (t : Table) (name : String) (item : Item) : Table :=
  if (t.lookup name).isSome then t.map fun e => if e.1 = name then (name, item) else e
  else t ++ [(name, item)]

/-- The table that a key leads to. -/
def find? : Key → Table → Option Table
  | [], t => some t
  | part :: rest, t =>
    match t.lookup part with
    | some (.table s) => find? rest s
    | some (.tables ss) => (ss.getLast?).bind (find? rest)
    | _ => none

/-- Sets a name below the tables that some parts of a key lead through. Missing tables are made; none
of the parts may stand for something else. -/
def insert? (name : String) (item : Item) : Key → Table → Option Table
  | [], t => some (t.put name item)
  | part :: rest, t =>
    match t.lookup part with
    | none => do return t.put part (.table (← insert? name item rest []))
    | some (.table s) => do return t.put part (.table (← insert? name item rest s))
    | some _ => none

/-- Sets what a name stands for in the table that a key leads to. -/
def putAt (name : String) (item : Item) : Key → Table → Table
  | [], t => t.put name item
  | part :: rest, t =>
    match t.lookup part with
    | some (.table s) => t.put part (.table (putAt name item rest s))
    | some (.tables ss) => t.put part (.tables (ss.dropLast ++ (ss.getLast?.map (putAt name item rest)).toList))
    | _ => t

/-- Makes the tables on the way to a key that are missing. Gives the keys of those as well. None of the
parts on the way may stand for something else. -/
def openParents? : Key → Table → Option (Table × List Key)
  | [], t | [_], t => some (t, [])
  | part :: rest, t =>
    match t.lookup part with
    | none => do
      let (s, made) ← openParents? rest []
      return (t.put part (.table s), [part] :: made.map (part :: ·))
    | some (.table s) => do
      let (s, made) ← openParents? rest s
      return (t.put part (.table s), made.map (part :: ·))
    | some (.tables ss) => do
      let (s, made) ← openParents? rest (← ss.getLast?)
      return (t.put part (.tables (ss.dropLast ++ [s])), made.map (part :: ·))
    | some (.value _) => none

end Table

mutual

/-- What a value is by itself. Of several settings of one key the last one counts, unless one of them
takes another one for a table. -/
def Expr.item? : Expr → Option Item
  | .table entries => do return .table (← Expr.entries? [] entries)
  | .array items => do
    let () ← Expr.checkItems items
    return .value (.array items)
  | .text s => some (.value (.text s))
  | .scalar => some (.value .scalar)

/-- Looks whether each item of an array is a value. -/
def Expr.checkItems : List Expr → Option Unit
  | [] => some ()
  | item :: rest => do
    let _ ← item.item?
    Expr.checkItems rest

/-- Adds entries to a table. -/
def Expr.entries? (t : Table) : List (Key × Expr) → Option Table
  | [] => some t
  | (key, value) :: rest => do
    let item ← value.item?
    Expr.entries? (← t.insert? (key.getLastD "") item key.dropLast) rest

end

/-- A document in the making. -/
structure Document where
  root : Table := []
  /-- The implicit tables. -/
  implicits : Std.HashSet Key := ∅
  /-- Which keys stand for arrays of values. -/
  arrays : Std.HashMap Key Bool := ∅
  /-- The keys of all headers and settings, the latest one first. -/
  latest : List Key := []
  deriving Inhabited

namespace Document

/-- The keys of all headers and settings in the order of the file. -/
def keys (d : Document) : List Key :=
  d.latest.reverse

/-- Notes a key of the file. -/
def note (d : Document) (key : Key) : Document :=
  { d with latest := key :: d.latest }

/-- Makes a table implicit. -/
def addImplicit (d : Document) (key : Key) : Document :=
  { d with implicits := d.implicits.insert key }

/-- Makes a table explicit. -/
def removeImplicit (d : Document) (key : Key) : Document :=
  { d with implicits := d.implicits.erase key }

/-- Notes whether a key stands for an array of values. -/
def setArray (d : Document) (context : Key) (name : String) (isArray : Bool) : Document :=
  let key := if name ≠ "" then context ++ [name] else if context = [] then [""] else context
  { d with arrays := d.arrays.insert key isArray }

/-- Sets a name in the table of a context. A name that is set already must be implicit. It then stays
what it is, unless the key stands for an array of values, which gives way. -/
def set (d : Document) (context : Key) (name : String) (item : Item) : Option Document := do
  let table ← d.root.find? context
  let key := context ++ [name]
  let d' := { d with root := d.root.putAt name item context }
  if (table.lookup name).isNone then return d'
  else if !d.implicits.contains key then none
  else if d.arrays.getD key false then return d'.removeImplicit key
  else return d.removeImplicit key

/-- Makes the tables on the way to a key, which are implicit. -/
def openParents (d : Document) (key : Key) : Option Document := do
  let (root, made) ← d.root.openParents? key
  return { d with root, implicits := d.implicits.insertMany made }

/-- Starts the table with a given key. -/
def openTable (d : Document) (key : Key) : Option Document := do
  (← d.openParents key).set key.dropLast (key.getLastD "") (.table [])

/-- Starts a new element of the array of tables with a given key. -/
def openElement (d : Document) (key : Key) : Option Document := do
  let d ← d.openParents key
  let name := key.getLastD ""
  let table ← d.root.find? key.dropLast
  let elements : List Table ← match table.lookup name with
    | none => some []
    | some (.tables ss) => some ss
    | some _ => none
  return { d with root := d.root.putAt name (.tables (elements ++ [[]])) key.dropLast }

/-- Starts the tables that the parts of a key but the last one lead through. -/
def openImplicits (context : Key) : Key → Document → Option (Key × Document)
  | [], d | [_], d => some (context, d)
  | part :: rest, d => do
    let key := context ++ [part]
    openImplicits key rest (← (d.addImplicit key).openTable key)

mutual

/-- What a value does to the document apart from being set: its tables are started and filled. -/
def enter (context : Key) (name : String) (inArray : Bool) : Expr → Document → Option Document
  | .text _, d | .scalar, d => some d
  | .array items, d => enterItems context name items (d.setArray context name true)
  | .table entries, d => do
    let key := context ++ [name]
    let d := d.addImplicit key
    let d ← if inArray then d.openElement key else d.openTable key
    setEntries key entries d

/-- Enters the items of an array. -/
def enterItems (context : Key) (name : String) : List Expr → Document → Option Document
  | [], d => some d
  | item :: rest, d => do enterItems context name rest (← enter context name true item d)

/-- Sets the entries of a table. -/
def setEntries (context : Key) : List (Key × Expr) → Document → Option Document
  | [], d => some d
  | (key, value) :: rest, d => do
    let (inner, d) ← openImplicits context key d
    let name := key.getLastD ""
    let d ← enter inner name false value (d.note (inner ++ [name]))
    let d ← d.set inner name (← value.item?)
    setEntries context rest (d.setArray inner name (value matches .array _))

end

/-- What a statement says, given the table of the last header. -/
def apply (context : Key) : Statement → Document → Option (Key × Document)
  | .table key, d => do
    let d ← d.openTable key
    return (key, (d.setArray key "" false).note key)
  | .element key, d => do
    let d ← d.openElement key
    return (key, (d.setArray key "" false).note key)
  | .setting key value, d => do
    return (context, ← setEntries context [(key, value)] d)

/-- The document of some statements. -/
def ofStatements? (statements : List Statement) : Option Document := do
  let (_, d) ← statements.foldlM (fun (context, d) s => apply context s d) (([] : Key), ({} : Document))
  return d

/-- The document of a file. -/
def parse? (bytes : ByteArray) : Option Document := do
  ofStatements? (← statements? bytes)

end Document

end JvmAot.Toml
