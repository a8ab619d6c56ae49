import JvmAot.Asm.Buffer
import JvmAot.CommandLine.Options
import JvmAot.Session.LayoutText

/-! # The command line

`CommandLine.run` is a whole run of the program, from the arguments to what is printed and to the files
that are left. -/

namespace JvmAot

/-- What a run leaves behind. -/
structure Outcome where
  /-- The exit code. -/
  exit : Nat
  stdout : ByteArray := .empty
  stderr : String := ""
  files : FileTree
  deriving Inhabited

namespace CommandLine

/-- The version of the program. -/
def version : String := "dev"

/-- Makes the directory of an output file, and the file with nothing in it. -/
def prepareOutput (files : FileTree) (path : String) : Except Failure FileTree := do
  (← files.makeDirectories (Path.directory path)).write path .empty

/-- What a command works with once its options are read. -/
structure Setting where
  files : FileTree
  options : Options
  config : Config
  project : Option Project

namespace Setting

/-- A run that ends in a failure after something was printed. A use of something that does not exist
ends it with no outcome. -/
def failAfter (stdout : ByteArray) (files : FileTree) (activity : String) (failure : Failure) :
    Except Failure Outcome :=
  if failure.kind = .fault then .error failure
  else .ok { exit := 1, stdout, stderr := activity ++ ": " ++ failure.message ++ "\n", files }

/-- A run that ends in a failure. -/
def fail (files : FileTree) (activity : String) (failure : Failure) : Except Failure Outcome :=
  failAfter .empty files activity failure

/-- What failures of the compiler are reported as. -/
def activity (s : Setting) : String :=
  "error compiling " ++ s.config.entry

/-- Compiles the program to standard output. What was passed on before a failure stays printed. -/
def compileToStdout (s : Setting) : Except Failure Outcome :=
  let t := s.config.compile s.files false
  match t.failure with
  | some failure => failAfter (Buffer.passedOn t.lines) s.files s.activity failure
  | none => .ok { exit := 0, stdout := Line.render t.lines, files := s.files }

/-- Compiles the program to a file. The file is there while the program is compiled, and is taken away
after a failure. -/
def compileToFile (s : Setting) (path : String) : Except Failure Outcome :=
  match prepareOutput s.files path with
  | .error failure => fail s.files s.activity failure
  | .ok files =>
    let t := s.config.compile files false
    match t.failure with
    | some failure => fail (files.remove path) s.activity failure
    | none =>
      match files.write path (Line.render t.lines) with
      | .error failure => fail files s.activity failure
      | .ok files => .ok { exit := 0, files }

/-- Compiles the program. -/
def compile (s : Setting) : Except Failure Outcome :=
  let path := s.options.outputPath s.project (·.output)
  if path = "" then s.compileToStdout else s.compileToFile path

/-- Writes the layout of the program. -/
def layout (s : Setting) : Except Failure Outcome :=
  let t := s.config.compile s.files false
  match t.failure with
  | some failure => fail s.files s.activity failure
  | none =>
    let text := t.state.layoutMap.toToml.toUTF8
    let path := s.options.outputPath s.project (·.layoutOutput)
    if path = "" then .ok { exit := 0, stdout := text, files := s.files }
    else
      match (prepareOutput s.files path).bind (·.write path text) with
      | .error failure => fail s.files "error writing layout" failure
      | .ok files => .ok { exit := 0, files }

end Setting

/-- Runs a command with its arguments. -/
def runCommand (name : String) (command : Setting → Except Failure Outcome) (files : FileTree)
    (args : List String) : Except Failure Outcome :=
  match Flag.parse Options.flags args {} with
  | .error e => .ok { exit := 1, stderr := Flag.complaint name Options.flags e, files }
  | .ok (options, args) =>
    let usage := Options.commandUsage name
    if options.help then .ok { exit := 0, stderr := usage, files }
    else
      let logged := if options.logFile ≠ "" && options.logs then files.touch options.logFile
        else .ok files
      match logged with
      | .error failure =>
        .ok { exit := 1, stderr := "log file error: " ++ failure.message ++ "\n", files }
      | .ok files =>
        let refuse (reason : String) : Except Failure Outcome :=
          .ok { exit := 1, stderr := reason ++ "\n" ++ usage, files }
        match args with
        | _ :: _ :: _ => refuse "too many arguments"
        | args =>
          match options.config files (args.headD "") with
          | .error failure => refuse ("invalid project: " ++ failure.message)
          | .ok (config, project) =>
            if config.entry = "" then refuse "missing entry class"
            else command { files, options, config, project }

/-- Runs the program with its arguments. -/
def run (files : FileTree) (args : List String) : Except Failure Outcome :=
  let flags := [Options.helpFlag]
  match Flag.parse flags args {} with
  | .error e =>
    .ok { exit := if e = .help then 0 else 2, stderr := Flag.complaint "majai" flags e, files }
  | .ok (options, args) =>
    let usage := Options.programUsage
    match if options.help then [] else args with
    | [] => .ok { exit := 0, stderr := usage, files }
    | "compile" :: args => runCommand "compile" Setting.compile files args
    | "layout" :: args => runCommand "layout" Setting.layout files args
    | "version" :: _ => .ok { exit := 0, stdout := (version ++ "\n").toUTF8, files }
    | _ => .ok { exit := 1, stderr := "invalid command\n" ++ usage, files }

end CommandLine

end JvmAot
