import JvmAot.Text.Quoted

/-! # Flags

A flag is an argument that starts with one or two hyphens. Its value follows after an equals sign or is
the next argument; a switch takes its value only after an equals sign and is set without one. Flags end
at the first argument that is none, or after `--`. -/

namespace JvmAot

/-- A flag that changes settings of type `σ`. -/
structure Flag (σ : Type) where
  name : String
  /-- What usage texts call the value, `none` for a switch. -/
  argument : Option String
  /-- What the flag is for. -/
  purpose : String
  /-- The value that usage texts name as the one that holds without the flag. -/
  standard : Option String := none
  /-- Takes over a value, or says why not. -/
  set : String → σ → Except String σ

/-- Why arguments are refused. -/
inductive FlagError where
  /-- A question for help, which is no error of the caller. -/
  | help
  | badForm (argument : String)
  | unknown (name : String)
  | noValue (name : String)
  | badSwitch (name value reason : String)
  | badValue (name value reason : String)
  deriving DecidableEq, Repr, Inhabited

namespace FlagError

/-- The error in words, `none` for a question for help. -/
def message? : FlagError → Option String
  | help => none
  | badForm argument => some ("bad flag syntax: " ++ argument)
  | unknown name => some ("flag provided but not defined: -" ++ name)
  | noValue name => some ("flag needs an argument: -" ++ name)
  | badSwitch name value reason =>
    some ("invalid boolean value " ++ quote value ++ " for -" ++ name ++ ": " ++ reason)
  | badValue name value reason =>
    some ("invalid value " ++ quote value ++ " for flag -" ++ name ++ ": " ++ reason)

end FlagError

/-- What an argument is to the reader of flags. -/
inductive Argument where
  /-- No flag. -/
  | plain
  /-- The mark after which no flag comes. -/
  | stop
  /-- The start of a flag without a name. -/
  | nameless
  | flag (name : String) (value : Option String)
  deriving DecidableEq, Repr, Inhabited

namespace Argument

/-- The flag whose name and value follow the hyphens. -/
def named (cs : List Char) : Argument :=
  match cs with
  | [] => nameless
  | first :: rest =>
    if first = '-' || first = '=' then nameless
    else
      let (name, value) := rest.span (· ≠ '=')
      flag (String.ofList (first :: name)) <|
        match value with
        | _ :: value => some (String.ofList value)
        | [] => none

/-- What an argument is. -/
def ofText (text : String) : Argument :=
  match text.toList with
  | ['-', '-'] => stop
  | '-' :: '-' :: cs => named cs
  | '-' :: c :: cs => named (c :: cs)
  | _ => plain

end Argument

namespace Flag

variable {σ : Type}

/-- Reads the flags at the start of some arguments. Returns the settings and the arguments after the
flags. -/
def parse (flags : List (Flag σ)) : List String → σ → Except FlagError (σ × List String)
  | [], settings => .ok (settings, [])
  | text :: rest, settings =>
    match Argument.ofText text with
    | .plain => .ok (settings, text :: rest)
    | .stop => .ok (settings, rest)
    | .nameless => .error (.badForm text)
    | .flag name value =>
      match flags.find? (·.name == name) with
      | none => .error (if name = "help" || name = "h" then .help else .unknown name)
      | some flag =>
        if flag.argument.isNone then
          let value := value.getD "true"
          match flag.set value settings with
          | .ok settings => parse flags rest settings
          | .error reason => .error (.badSwitch name value reason)
        else
          match value with
          | some value =>
            match flag.set value settings with
            | .ok settings => parse flags rest settings
            | .error reason => .error (.badValue name value reason)
          | none =>
            match rest with
            | [] => .error (.noValue name)
            | value :: rest =>
              match flag.set value settings with
              | .ok settings => parse flags rest settings
              | .error reason => .error (.badValue name value reason)

/-- The entry of a flag in a usage text. -/
def entry (flag : Flag σ) : String :=
  let head := "  -" ++ flag.name ++ ((flag.argument.map (" " ++ ·)).getD "")
  head ++ (if head.utf8ByteSize ≤ 4 then "\t" else "\n    \t") ++ flag.purpose ++
    ((flag.standard.map fun value => " (default " ++ value ++ ")").getD "") ++ "\n"

/-- The entries of some flags. -/
def entries (flags : List (Flag σ)) : String :=
  String.join (flags.map entry)

/-- The usage text of a command. -/
def usage (command : String) (flags : List (Flag σ)) : String :=
  "Usage of " ++ command ++ ":\n" ++ entries flags

/-- What is said when arguments are refused. -/
def complaint (command : String) (flags : List (Flag σ)) (e : FlagError) : String :=
  ((e.message?.map (· ++ "\n")).getD "") ++ usage command flags

/-- A switch. -/
def switch (name purpose : String) (set : Bool → σ → σ) : Flag σ where
  name
  argument := none
  purpose
  set value settings :=
    if ["1", "t", "T", "TRUE", "true", "True"].contains value then .ok (set true settings)
    else if ["0", "f", "F", "FALSE", "false", "False"].contains value then .ok (set false settings)
    else .error "parse error"

/-- A flag with a text. -/
def text (name purpose : String) (set : String → σ → σ) : Flag σ where
  name
  argument := some "string"
  purpose
  set value settings := .ok (set value settings)

end Flag

end JvmAot
