import JvmAot.CommandLine.Flag
import JvmAot.LogScope
import JvmAot.Project
import JvmAot.Text.Integer

/-! # Options

The options of the commands, and the texts that explain them. -/

namespace JvmAot

/-- The options of a command. -/
structure Options where
  help : Bool := false
  /-- The directory of the project file. -/
  project : String := ""
  /-- Lists of directories to search for class files. -/
  classPath : List String := []
  prologue : String := ""
  output : String := ""
  verbosity : Int := 0
  logFile : String := ""
  scopes : LogScopes := LogScopes.all
  deriving Inhabited

namespace Options

/-- The flag for help. -/
def helpFlag : Flag Options :=
  .switch "h" "print usage" fun help o => { o with help }

/-- The flag for the log verbosity. -/
def verbosityFlag : Flag Options where
  name := "v"
  argument := some "int"
  purpose := "Log verbosity: 0 logs errors, each step adds a level, -1 disables logging."
  set value o :=
    match Integer.parse value with
    | .ok verbosity => .ok { o with verbosity }
    | .error .malformed => .error "parse error"
    | .error .outOfRange => .error "value out of range"

/-- The flag for the log scopes. -/
def scopesFlag : Flag Options where
  name := "log"
  argument := some "value"
  purpose := "A comma-separated list of scopes to log. " ++
    "Supported values: all,load,resolve,compile,translate,objects"
  standard := some LogScopes.all.toText
  set value o :=
    match LogScopes.parse value with
    | .ok scopes => .ok { o with scopes }
    | .error failure => .error failure.message

/-- The flag for the class path. -/
def classPathFlag : Flag Options where
  name := "cp"
  argument := some "value"
  purpose := "Directories to search for class files, separated by the OS path list separator. " ++
    "This may be specified multiple times and replaces the class path of the project file."
  set value o := .ok { o with classPath := o.classPath ++ [value] }

/-- The flags of the commands in the order of their names. -/
def flags : List (Flag Options) :=
  [classPathFlag, helpFlag, scopesFlag,
    .text "logfile" "File to log to instead of stderr." fun logFile o => { o with logFile },
    .text "o" "Output file. Defaults to the project setting, then to stdout."
      fun output o => { o with output },
    .text "project" ("Directory holding " ++ Project.fileName ++
      ". Defaults to the current directory, where the file is optional.")
      fun project o => { o with project },
    .text "prologue" "Assembly file copied to the start of the output."
      fun prologue o => { o with prologue },
    verbosityFlag]

/-- Whether the run keeps a log at all. Four steps below the usual verbosity there is no level left. -/
def logs (o : Options) : Bool :=
  -4 < o.verbosity

/-- The usage text of the program. -/
def programUsage : String :=
  "majai CLI\n\nUsage:\n  majai <command>\n\nCommands:\n" ++
    "  compile\tCompiles a class and its dependencies to RISC-V assembly\n" ++
    "  layout\tWrites the field and vtable layout of a program as TOML\n" ++
    "  version\tDisplays the version of majai CLI\n"

/-- The usage text of a command. -/
def commandUsage (command : String) : String :=
  "majai CLI\n\nUsage:\n  majai " ++ command ++ " <options> [entry class]\n\nOptions:\n" ++
    Flag.entries flags

/-- The configuration that a project file and the options give, and the project if there is one. The
options count more. The project file in the working directory may be missing. -/
def config (o : Options) (files : FileTree) (entry : String) :
    Except Failure (Config × Option Project) := do
  let project ← match Project.load files (if o.project = "" then "." else o.project) with
    | .ok project => pure (some project)
    | .error failure =>
      if o.project ≠ "" || !(failure.cause matches .noProject ..) then throw failure else pure none
  let c : Config := (project.map fun p => p.config {}).getD {}
  let c := if o.classPath = [] then c else c.withClassPath (o.classPath.flatMap Path.splitList)
  let c := if o.prologue = "" then c else c.withPrologueFile o.prologue
  let c := if entry = "" then c else c.withEntry entry
  return (c, project)

/-- The file that is written, given the setting of the project for it. -/
def outputPath (o : Options) (project : Option Project) (setting : Project → String) : String :=
  if o.output ≠ "" then o.output
  else (project.map fun p => p.path (setting p)).getD ""

end Options

end JvmAot
