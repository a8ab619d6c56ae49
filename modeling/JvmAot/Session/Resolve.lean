import JvmAot.Session.Basic

/-! # Resolution

`Session.resolveClass` finds a class in the table, or loads it, resolves its superclass and adds it.
`Session.resolveArray` does the same for array types. A failure leaves what was resolved on the way in
the session. -/

namespace JvmAot.Session

variable (loader : Loader)

/-- Adds a class to the session, given its file and its resolved superclass. -/
def define (name : String) (file : ClassFile) (super : Option ClassInfo) (s : Session) :
    Except Failure ClassInfo × Session :=
  let (fields, statics) :=
    allocateFields name file.fields ((super.map (·.layout)).getD {}) s.statics
  let s := { s with statics }
  match fields with
  | .error failure => (.error failure, s)
  | .ok (fields, layout) =>
    match allocateMethods name 0 file.methods ((super.map (·.vtable)).getD {}) with
    | .error failure => (.error failure, s)
    | .ok (methods, vtable) =>
      let (metadata, heap) := s.heap.newMetadata <|
        if file.flags.isInterface then { kind := .interfaceType, name }
        else { kind := .classType, name, parent := super.map (·.metadata) }
      let c : ClassInfo :=
        { name, superName := super.map (·.name), flags := file.flags, fields, methods, layout, vtable,
          metadata }
      (.ok c, { s with heap, classes := s.classes.insert c })

/-- Resolves a class, at most `fuel` deep. -/
def resolveClassWithin : (fuel : Nat) → String → Session → Except Failure ClassInfo × Session
  | 0, _, s => (.error (Cause.loaderExhausted : Failure), s)
  | fuel + 1, name, s =>
    if ClassName.isArray name then (.error (Cause.arrayAsClass name : Failure), s)
    else
      let name := ClassName.slashed name
      match s.classes.find? name with
      | some c => (.ok c, s)
      | none =>
        if s.isClosed then (.error (Cause.classResolutionClosed name : Failure), s)
        else if s.resolving.contains name then (.error (Cause.circularSuperclass name : Failure), s)
        else
          match loader.load name with
          | .error failure => (.error failure, s)
          | .ok file =>
            match file.superName with
            | none => s.define name file none
            | some superName =>
              match resolveClassWithin fuel superName { s with resolving := name :: s.resolving } with
              | (.error failure, s') => (.error failure, { s' with resolving := s.resolving })
              | (.ok super, s') => { s' with resolving := s.resolving }.define name file (some super)

/-- The class with a given name in slash or dotted form. -/
def resolveClass (name : String) (s : Session) : Except Failure ClassInfo × Session :=
  resolveClassWithin loader (loader.limit + 1) name s

/-- Adds an array type to the session. Arrays inherit from the root class and dispatch like it. -/
def defineArray (object : ClassInfo) (descriptor : String) (element : Option ObjectId)
    (elementType : Option BaseType) (s : Session) : ObjectId × Session :=
  let (metadata, heap) := s.heap.newMetadata
    { kind := if element.isSome then .objectArray else .primitiveArray, name := descriptor,
      parent := some object.metadata, element, elementType }
  let heap := heap.setVtable metadata (object.vtableContents metadata)
  (metadata, { s with heap, arrays := (descriptor, metadata) :: s.arrays })

/-- The metadata of the array type with the elements of type `leaf` and the given dimension. -/
def resolveArrayOf (leaf : FieldType) : (dimension : Nat) → Session → Except Failure ObjectId × Session
  | 0, s => (.error (Cause.notAnArray leaf.toText : Failure), s)
  | dimension + 1, s =>
    let descriptor := { leaf with dimension := dimension + 1 }.toText
    match s.arrays.lookup descriptor, s.object with
    | some metadata, _ => (.ok metadata, s)
    | none, none => (.error (Cause.rootNotResolved objectClass : Failure), s)
    | none, some object =>
      if dimension = 0 then
        if leaf.isReference then
          match s.resolveClass loader leaf.className with
          | (.error failure, s) => (.error failure, s)
          | (.ok c, s) =>
            let (metadata, s) := s.defineArray object descriptor (some c.metadata) none
            (.ok metadata, s)
        else
          let (metadata, s) := s.defineArray object descriptor none (some leaf.base)
          (.ok metadata, s)
      else
        match resolveArrayOf leaf dimension s with
        | (.error failure, s) => (.error failure, s)
        | (.ok element, s) =>
          let (metadata, s) := s.defineArray object descriptor (some element) none
          (.ok metadata, s)

/-- The metadata of the array type with a given descriptor. -/
def resolveArray (descriptor : String) (s : Session) : Except Failure ObjectId × Session :=
  match s.arrays.lookup descriptor with
  | some metadata => (.ok metadata, s)
  | none =>
    if s.isClosed then (.error (Cause.arrayResolutionClosed descriptor : Failure), s)
    else
      match FieldType.parse descriptor with
      | .error failure => (.error failure, s)
      | .ok type =>
        if type.isArray then resolveArrayOf loader { type with dimension := 0 } type.dimension s
        else (.error (Cause.notAnArray descriptor : Failure), s)

/-- The array types of primitive elements. -/
def primitiveArrays : List String :=
  ["[Z", "[B", "[S", "[C", "[I", "[F", "[J", "[D"]

/-- Resolves array types in order, up to a failure. -/
def resolveArrays : List String → Session → Except Failure Unit × Session
  | [], s => (.ok (), s)
  | descriptor :: rest, s =>
    match s.resolveArray loader descriptor with
    | (.error failure, s) => (.error failure, s)
    | (.ok _, s) => resolveArrays rest s

/-- Resolves the classes and array types that generated code and the runtime rely on. -/
def bootstrap (s : Session) : Except Failure Unit × Session :=
  let (object, s) := s.resolveClass loader objectClass
  let s := { s with object := object.toOption }
  match object with
  | .error failure => (.error failure, s)
  | .ok _ =>
    let (array, s) := s.resolveClass loader arrayClass
    let s := { s with array := array.toOption }
    match array with
    | .error failure => (.error failure, s)
    | .ok _ =>
      let (string, s) := s.resolveClass loader stringClass
      let s := { s with string := string.toOption }
      match string with
      | .error failure => (.error failure, s)
      | .ok _ => s.resolveArrays loader (primitiveArrays ++ [Heap.vtableType])

end JvmAot.Session
