import JvmAot.Config
import JvmAot.Toml.Document

/-! # Project files

A project file is a TOML file with the settings of a program: a table `compile` for what is compiled
and a table `layout` for its layout map. Names are matched whatever their case, and other names are
refused, so that a misspelt one does not pass unnoticed. -/

namespace JvmAot

/-- The settings of a project file. Settings that are not there are empty. -/
structure Project where
  /-- The directory of the project file. Relative paths start there. -/
  directory : String := ""
  entry : String := ""
  classPath : List String := []
  prologue : String := ""
  /-- The file that the program is written to. -/
  output : String := ""
  /-- The file that the layout map is written to. -/
  layoutOutput : String := ""
  deriving DecidableEq, Repr, Inhabited

namespace Project

/-- The name of project files. -/
def fileName : String := "majai.toml"

/-- A name with its letters in one case. The long s and the Kelvin sign are letters in another case of
`s` and `k`. -/
def foldCase (name : String) : String :=
  name.map fun c =>
    if c.toNat = 0x17f then 's' else if c.toNat = 0x212a then 'k' else c.toLower

/-- The text that an item is. -/
def text? : Toml.Item → Option String
  | .value (.text text) => some text
  | _ => none

/-- The texts that an item lists. -/
def texts? : Toml.Item → Option (List String)
  | .value (.array items) => items.mapM fun item => text? (.value item)
  | _ => none

/-- The table that an item is. -/
def table? : Toml.Item → Option Toml.Table
  | .table entries => some entries
  | _ => none

/-- Takes over a setting of the table `compile`. -/
def setCompile (p : Project) (name : String) (item : Toml.Item) : Option Project :=
  match foldCase name with
  | "entry" => (text? item).map fun entry => { p with entry }
  | "classpath" => (texts? item).map fun classPath => { p with classPath }
  | "prologue" => (text? item).map fun prologue => { p with prologue }
  | "output" => (text? item).map fun output => { p with output }
  | _ => some p

/-- Takes over a setting of the table `layout`. -/
def setLayout (p : Project) (name : String) (item : Toml.Item) : Option Project :=
  match foldCase name with
  | "output" => (text? item).map fun layoutOutput => { p with layoutOutput }
  | _ => some p

/-- Takes over a table. -/
def setTable (p : Project) (name : String) (item : Toml.Item) : Option Project :=
  match foldCase name with
  | "compile" => do (← table? item).foldlM (fun p (name, item) => p.setCompile name item) p
  | "layout" => do (← table? item).foldlM (fun p (name, item) => p.setLayout name item) p
  | _ => some p

/-- The settings of a table. -/
def settings : (table : String) → List String
  | "compile" => ["entry", "classpath", "prologue", "output"]
  | "layout" => ["output"]
  | _ => []

/-- Whether a key of a project file leads to something that is taken over. It must have a known name,
and the file must not replace its table later. -/
def isTakenOver (root : Toml.Table) : Toml.Key → Bool
  | [table] => settings (foldCase table) ≠ []
  | [table, name] => (settings (foldCase table)).contains (foldCase name) &&
    ((root.find? [table]).bind (·.lookup name)).isSome
  | _ => false

/-- The project of a file with the given contents and path. -/
def parse (directory path : String) (contents : ByteArray) : Except Failure Project :=
  let malformed : Failure := Cause.malformedProject path
  match Toml.Document.parse? contents with
  | none => .error malformed
  | some d =>
    match d.root.foldlM (fun p (name, item) => p.setTable name item) ({ directory } : Project) with
    | none => .error malformed
    | some p =>
      match d.keys.find? fun key => !isTakenOver d.root key with
      | some key => .error (Cause.unknownKey key.text path : Failure)
      | none => .ok p

/-- The project in a directory. -/
def load (files : FileTree) (directory : String) : Except Failure Project :=
  let path := Path.join directory fileName
  match files.read path with
  | .ok contents => parse directory path contents
  | .error failure =>
    if failure.cause = .file "open" path .notFound then
      .error (Cause.noProject fileName directory : Failure)
    else .error (failure.within ("cannot read " ++ path))

/-- A path of the project file. Empty and absolute paths stay as they are. -/
def path (p : Project) (path : String) : String :=
  if path = "" || Path.isAbsolute path then path else Path.join p.directory path

/-- The settings of the project on top of others. -/
def config (p : Project) (base : Config) : Config :=
  let c := if p.classPath = [] then base else base.withClassPath (p.classPath.map p.path)
  let c := if p.entry = "" then c else c.withEntry p.entry
  if p.prologue = "" then c else c.withPrologueFile (p.path p.prologue)

end Project

end JvmAot
