import JvmAot.Heap.Emission
import JvmAot.Lowering.Method
import JvmAot.Session.Context

/-! # Compiling a program

A program is compiled class by class, from its entry class on. Compiling a class can resolve more
classes, which are compiled too. After the last one, resolution is closed, and the static fields, the
vtable symbols and the runtime objects are written. -/

namespace JvmAot

namespace Listing

variable {σ : Type}

/-- Goes on in the state that is left, unless there is a failure. -/
def andThen (t : Listing σ) (next : σ → Listing σ) : Listing σ :=
  match t.failure with
  | some _ => t
  | none => (next t.state).prepend t.lines

/-- A failure before any text. -/
def fail (failure : Failure) (state : σ) : Listing σ :=
  { lines := [], failure := some failure, state }

end Listing

namespace Session

variable (loader : Loader)

/-- The bodies of some methods of the class `className`. -/
def methodsListing (header : Nat) (className : String) : List MethodInfo → Session → Listing Session
  | [], s => { lines := [], failure := none, state := s }
  | m :: rest, s =>
    (m.decl.listing (context loader className) header className s).andThen
      (methodsListing header className rest)

/-- Sets the contents of the vtable of a class. Interfaces have none. -/
def fillVtable (c : ClassInfo) (s : Session) : Session :=
  { s with heap := s.heap.setVtable c.metadata (c.vtableContents c.metadata) }

/-- The text of a class. -/
def classListing (c : ClassInfo) (s : Session) : Listing Session :=
  let name := ClassName.dotted c.name
  let text : Listing Session :=
    match s.arrayHeaderSize with
    | .error failure => .fail failure s
    | .ok header =>
      ((s.methodsListing loader header c.name c.methods).prepend
        [.banner ("class " ++ name)]).andThen fun s =>
          { lines := [.blank], failure := none, state := s.fillVtable c }
  text.within ("error compiling class " ++ name)

/-- The texts of some classes. -/
def classesListing : List ClassInfo → Session → Listing Session
  | [], s => { lines := [], failure := none, state := s }
  | c :: rest, s => (s.classListing loader c).andThen (classesListing rest)

/-- The text of a class after those of its superclasses, without the classes that have been compiled
before. -/
def compileClass (c : ClassInfo) (s : Session) : Listing Session :=
  let pending := (s.classes.chain c).takeWhile fun k => !s.compiled.contains k.name
  let s := { s with compiled := pending.map ClassInfo.name ++ s.compiled }
  s.classesListing loader pending.reverse

/-- The texts of the classes from number `next` of the resolution order on, at most `fuel` of them,
including those that are resolved meanwhile. -/
def compileFrom : (fuel next : Nat) → Session → Listing Session
  | 0, _, s => .fail (Cause.loaderExhausted : Failure) s
  | fuel + 1, next, s =>
    match s.classes.order[next]? with
    | none => { lines := [], failure := none, state := s }
    | some c => (s.compileClass loader c).andThen (compileFrom fuel (next + 1))

/-- The pool of static fields. -/
def staticFieldLines (s : Session) : List Line :=
  [.banner "static fields", .segment ".data", .label Symbol.staticFields,
    .directive ".fill" [toString s.staticWords, "4", "0"], .blank]

/-- The vtable symbols of some classes. -/
def aliasLines : List ClassInfo → Session → List Line × Session
  | [], s => ([], s)
  | c :: rest, s =>
    match s.heap.vtable c.metadata with
    | .missingVtable => aliasLines rest s
    | vtable =>
      let (label, s) := s.label vtable
      let (lines, s) := aliasLines rest s
      (.equate (Symbol.ofVtable c.name) label :: lines, s)

/-- The data that follows the code. -/
def dataLines (s : Session) : Listing Session :=
  let (aliases, s) := aliasLines s.classes.order s
  let (e, failure) := Emission.all (s.objectResolver loader) { heap := s.heap, labels := s.labels }
  let s := { s with heap := e.heap, labels := e.labels }
  let objects : Listing Session := { lines := e.lines.toList, failure, state := s }
  (objects.prepend
    (s.staticFieldLines ++
      [.banner "alias labels for runtime objects", .segment ".data"] ++ aliases ++ [.blank] ++
      [.banner "runtime objects", .segment ".data"])).append
    [.blank, .segment ".data", .label Symbol.dynamicHeap]

/-- The text of the program with the given entry class, after the given prologue. -/
def compile (prologue : ByteArray) (entry : String) (s : Session) : Listing Session :=
  let text : Listing Session :=
    match s.bootstrap loader with
    | (.error failure, s) => .fail failure s
    | (.ok _, s) =>
      match s.resolveClass loader entry with
      | (.error failure, s) => .fail failure s
      | (.ok c, s) =>
        ((s.compileClass loader c).andThen (compileFrom loader (loader.limit + 1) 0)).andThen fun s =>
          s.close.dataLines loader
  text.prepend [.raw prologue]

end Session

end JvmAot
