/-! # Texts of a TOML file

Texts stand between quotation marks, where escapes count, or between apostrophes, where nothing does.
Tripled marks allow line breaks. -/

namespace JvmAot.Toml

/-- Whether a character is a space or a tab. -/
def isBlank (c : Char) : Bool :=
  c = ' ' || c = '\t'

/-- Whether a character is part of a line break. -/
def isBreak (c : Char) : Bool :=
  c = '\n' || c = '\r'

/-- The number that some hexadecimal digits spell, if they do. -/
def hexValue? (digits : List Char) : Option Nat :=
  digits.foldlM (fun n c =>
    if c.isDigit then some (n * 16 + (c.toNat - '0'.toNat))
    else if 'a' ≤ c.toLower && c.toLower ≤ 'f' then some (n * 16 + (c.toLower.toNat - 'a'.toNat + 10))
    else none) 0

/-- The character with the code that some hexadecimal digits spell. -/
def hexChar? (digits : List Char) : Option Char := do
  let n ← hexValue? digits
  if n.isValidChar then some (Char.ofNat n) else none

/-- Reads what follows a backslash. -/
def escape? : List Char → Option (Char × List Char)
  | 'b' :: rest => some ('\x08', rest)
  | 't' :: rest => some ('\t', rest)
  | 'n' :: rest => some ('\n', rest)
  | 'f' :: rest => some ('\x0c', rest)
  | 'r' :: rest => some ('\r', rest)
  | 'e' :: rest => some ('\x1b', rest)
  | '"' :: rest => some ('"', rest)
  | '\\' :: rest => some ('\\', rest)
  | 'x' :: a :: b :: rest => (hexChar? [a, b]).map (·, rest)
  | 'u' :: a :: b :: c :: d :: rest => (hexChar? [a, b, c, d]).map (·, rest)
  | 'U' :: a :: b :: c :: d :: e :: f :: g :: h :: rest =>
    (hexChar? [a, b, c, d, e, f, g, h]).map (·, rest)
  | _ => none

/-- Reads the rest of a text on one line that ends at the next quotation mark, at most `fuel`
characters of it. -/
def line? : (fuel : Nat) → List Char → Option (List Char × List Char)
  | fuel + 1, c :: rest =>
    if c = '"' then some ([], rest)
    else if isBreak c then none
    else if c = '\\' then do
      let (escaped, rest) ← escape? rest
      let (text, rest) ← line? fuel rest
      return (escaped :: text, rest)
    else do
      let (text, rest) ← line? fuel rest
      return (c :: text, rest)
  | _, _ => none

/-- Reads the rest of a text on one line that ends at the next apostrophe. -/
def rawLine? (cs : List Char) : Option (List Char × List Char) :=
  let (text, rest) := cs.span (· ≠ '\x27')
  match rest with
  | _ :: rest => if text.any isBreak then none else some (text, rest)
  | [] => none

/-- Leaves out a line break at the start. -/
def dropBreak : List Char → List Char
  | '\n' :: rest => rest
  | '\r' :: '\n' :: rest => rest
  | cs => cs

/-- Reads a run of `mark`. Up to two of them belong to the text; three end it, after up to `extra`
more. -/
def marks? (mark : Char) (extra : Nat) (cs : List Char) : Option (List Char × Bool × List Char) :=
  let (run, rest) := cs.span (· = mark)
  if run.length < 3 then some (run, false, rest)
  else if run.length ≤ 3 + extra then some (run.drop 3, true, rest)
  else none

/-- Reads the rest of a text that ends at three quotation marks. A backslash at the end of a line takes
away the blanks and line breaks that follow it. Two more quotation marks may stand before the end, and
one more than that right after two backslashes that stand for one. -/
def lines? : (fuel : Nat) → (afterBackslash : Bool) → List Char → Option (List Char × List Char)
  | fuel + 1, afterBackslash, c :: rest =>
    if c = '"' then do
      let (text, isEnd, rest) ← marks? '"' (if afterBackslash then 3 else 2) (c :: rest)
      if isEnd then return (text, rest)
      let (more, rest) ← lines? fuel false rest
      return (text ++ more, rest)
    else if c = '\\' then
      let (space, after) := rest.span fun c => isBlank c || isBreak c
      if space.contains '\n' then lines? fuel false after
      else do
        let (escaped, after) ← escape? rest
        let (text, after) ← lines? fuel (rest.head? = some '\\') after
        return (escaped :: text, after)
    else do
      let (text, rest) ← lines? fuel false rest
      return (c :: text, rest)
  | _, _, _ => none

/-- Reads the rest of a text that ends at three apostrophes. -/
def rawLines? : (fuel : Nat) → List Char → Option (List Char × List Char)
  | fuel + 1, c :: rest =>
    if c = '\x27' then do
      let (text, isEnd, rest) ← marks? '\x27' 2 (c :: rest)
      if isEnd then return (text, rest)
      let (more, rest) ← rawLines? fuel rest
      return (text ++ more, rest)
    else do
      let (text, rest) ← rawLines? fuel rest
      return (c :: text, rest)
  | _, _ => none

/-- Reads a text of at most `size` characters, if there is one. The outer option tells whether there is,
the inner one whether it is well formed. -/
def text? (size : Nat) : List Char → Option (Option (String × List Char))
  | '"' :: '"' :: '"' :: rest => some ((lines? size false (dropBreak rest)).map finish)
  | '"' :: rest => some ((line? size rest).map finish)
  | '\x27' :: '\x27' :: '\x27' :: rest => some ((rawLines? size (dropBreak rest)).map finish)
  | '\x27' :: rest => some ((rawLine? rest).map finish)
  | _ => none
where
  /-- The text that some characters form. -/
  finish (r : List Char × List Char) : String × List Char := (String.ofList r.1, r.2)

end JvmAot.Toml
