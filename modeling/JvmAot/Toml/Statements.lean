import JvmAot.Toml.Basic
import JvmAot.Toml.Scalar
import JvmAot.Toml.Text

/-! # Reading TOML

`Toml.statements?` reads the statements of a file. The number of characters of the file, `size`, bounds
every text and every key in it, and how deep arrays and tables nest. -/

namespace JvmAot.Toml

/-- Skips blanks. -/
def skipBlanks (cs : List Char) : List Char :=
  cs.dropWhile isBlank

/-- Skips blanks, line breaks and comments. -/
def skipSpace : (inComment : Bool) → List Char → List Char
  | _, [] => []
  | true, c :: rest => skipSpace (c ≠ '\n') rest
  | false, c :: rest =>
    if c = '#' then skipSpace true rest
    else if isBlank c || isBreak c then skipSpace false rest
    else c :: rest

/-- Reads a part of a key. -/
def part? (size : Nat) (cs : List Char) : Option (String × List Char) :=
  match cs with
  | '"' :: rest => (line? size rest).map text?.finish
  | '\x27' :: rest => (rawLine? rest).map text?.finish
  | cs =>
    let (bare, rest) := cs.span isBare
    if bare = [] then none else some (String.ofList bare, rest)

/-- Reads a key and the blanks around it, at most `fuel` parts of it. -/
def key? (size : Nat) : (fuel : Nat) → List Char → Option (Key × List Char)
  | 0, _ => none
  | fuel + 1, cs => do
    let (part, rest) ← part? size (skipBlanks cs)
    match skipBlanks rest with
    | '.' :: rest =>
      let (parts, rest) ← key? size fuel rest
      return (part :: parts, rest)
    | rest => return ([part], rest)

/-- Reads a key and the equals sign after it. -/
def settingKey? (size : Nat) (cs : List Char) : Option (Key × List Char) := do
  let (key, rest) ← key? size size cs
  match rest with
  | '=' :: rest => return (key, rest)
  | _ => none

mutual

/-- Reads a value. -/
def value? (size : Nat) : (fuel : Nat) → List Char → Option (Expr × List Char)
  | 0, _ => none
  | fuel + 1, cs =>
    match skipBlanks cs with
    | '[' :: rest => (items? size fuel rest).map fun (items, rest) => (.array items, rest)
    | '{' :: rest => (entries? size fuel rest).map fun (entries, rest) => (.table entries, rest)
    | cs =>
      match text? size cs with
      | some text => text.map fun (text, rest) => (.text text, rest)
      | none => (scalar? cs).map (.scalar, ·)

/-- Reads the items of an array and the bracket that ends it. -/
def items? (size : Nat) : (fuel : Nat) → List Char → Option (List Expr × List Char)
  | 0, _ => none
  | fuel + 1, cs =>
    match skipSpace false cs with
    | ']' :: rest => some ([], rest)
    | cs => do
      let (item, rest) ← value? size fuel cs
      match skipSpace false rest with
      | ',' :: rest =>
        let (items, rest) ← items? size fuel rest
        return (item :: items, rest)
      | ']' :: rest => return ([item], rest)
      | _ => none

/-- Reads the settings of a table and the brace that ends it. -/
def entries? (size : Nat) : (fuel : Nat) → List Char → Option (List (Key × Expr) × List Char)
  | 0, _ => none
  | fuel + 1, cs =>
    match skipSpace false cs with
    | '}' :: rest => some ([], rest)
    | cs => do
      let (key, rest) ← settingKey? size cs
      let (value, rest) ← value? size fuel rest
      match skipSpace false rest with
      | ',' :: rest =>
        let (entries, rest) ← entries? size fuel rest
        return ((key, value) :: entries, rest)
      | '}' :: rest => return ([(key, value)], rest)
      | _ => none

end

/-- Reads the end of a line. -/
def lineEnd? (cs : List Char) : Option (List Char) :=
  match skipBlanks cs with
  | [] => some []
  | c :: rest => if c = '#' || isBreak c then some (skipSpace false (c :: rest)) else none

/-- Reads a statement without the end of its line. -/
def statement? (size : Nat) (cs : List Char) : Option (Statement × List Char) :=
  match cs with
  | '[' :: '[' :: rest => do
    let (key, rest) ← key? size size rest
    match rest with
    | ']' :: ']' :: rest => return (.element key, rest)
    | _ => none
  | '[' :: rest => do
    let (key, rest) ← key? size size rest
    match rest with
    | ']' :: rest => return (.table key, rest)
    | _ => none
  | cs => do
    let (key, rest) ← settingKey? size cs
    let (value, rest) ← value? size (2 * size) rest
    return (.setting key value, rest)

/-- Reads at most `fuel` statements, of which the first one starts here. -/
def statementsFrom? (size : Nat) : (fuel : Nat) → List Char → Option (List Statement)
  | _, [] => some []
  | 0, _ :: _ => none
  | fuel + 1, c :: rest => do
    let (statement, rest) ← statement? size (c :: rest)
    let statements ← statementsFrom? size fuel (← lineEnd? rest)
    return statement :: statements

/-- Whether no character is a control character, tabs and line breaks excepted. A carriage return must
come before a line feed. -/
def isPlain : List Char → Bool
  | [] => true
  | '\r' :: rest => (match rest with | '\n' :: _ => true | _ => false) && isPlain rest
  | c :: rest => (c = '\t' || c = '\n' || (0x20 ≤ c.toNat && c.toNat ≠ 0x7f)) && isPlain rest

/-- The contents of a file without a mark of its encoding at the start. -/
def withoutMark (bytes : ByteArray) : ByteArray :=
  match bytes.toList with
  | 0xff :: 0xfe :: _ | 0xfe :: 0xff :: _ => bytes.extract 2 bytes.size
  | 0xef :: 0xbb :: 0xbf :: _ => bytes.extract 3 bytes.size
  | _ => bytes

/-- The statements of a file. -/
def statements? (bytes : ByteArray) : Option (List Statement) := do
  let text ← String.fromUTF8? (withoutMark bytes)
  let cs := text.toList
  let size := cs.length
  if isPlain cs then statementsFrom? size size (skipSpace false cs) else none

end JvmAot.Toml
