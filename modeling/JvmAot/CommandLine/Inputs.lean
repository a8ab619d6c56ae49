import JvmAot.CommandLine.Options

/-! # The files of a run

A run works on a file tree that was taken beforehand. `CommandLine.inputs` says which part of the file
system that tree must hold. -/

namespace JvmAot

/-- The paths that a run looks at. -/
structure Inputs where
  /-- Paths that matter alone. -/
  single : List String := []
  /-- Directories that class files are searched in. -/
  searched : List String := []
  deriving DecidableEq, Repr, Inhabited

namespace CommandLine

/-- The paths that a command looks at, as far as the project file is known. -/
def commandInputs (files : FileTree) (options : Options) (entry : String) : Inputs :=
  let project := Path.join (if options.project = "" then "." else options.project) Project.fileName
  match options.config files entry with
  | .error _ => { single := [project] }
  | .ok (config, found) =>
    let prologue := match config.prologue with
      | .file path => [path]
      | .text _ => []
    let outputs := [options.output, options.logFile] ++
      found.toList.flatMap fun p => [p.path p.output, p.path p.layoutOutput]
    { single := project :: prologue ++ outputs.filter (· ≠ ""), searched := config.classPath }

/-- The paths that a run with the given arguments looks at, as far as the project file is known. -/
def inputs (files : FileTree) (args : List String) : Inputs :=
  match Flag.parse [Options.helpFlag] args {} with
  | .ok (_, _ :: args) =>
    match Flag.parse Options.flags args {} with
    | .ok (options, args) => commandInputs files options (args.headD "")
    | .error _ => {}
  | _ => {}

end CommandLine

end JvmAot
