import JvmAot.Text.Printable

/-! # Quoted text

A text is quoted for a message so that it fits on one line and every character can be told: quotes and
backslashes are escaped, printable characters stand as they are, and every other character is written
as a short escape or by its code point in hexadecimal. -/

namespace JvmAot.Quoted

/-- The number `n` in lower-case hexadecimal with at least `width` digits. -/
def hex (width n : Nat) : String :=
  let digits := Nat.toDigits 16 n
  String.ofList (List.replicate (width - digits.length) '0' ++ digits)

/-- The escape of a character that is not printable: a letter for the seven common control
characters, otherwise two, four or eight hexadecimal digits, whichever is enough for its range. -/
def escapeControl (code : Nat) : String :=
  match code with
  | 0x07 => "\\a"
  | 0x08 => "\\b"
  | 0x09 => "\\t"
  | 0x0a => "\\n"
  | 0x0b => "\\v"
  | 0x0c => "\\f"
  | 0x0d => "\\r"
  | _ =>
    if code < 0x20 || code == 0x7f then "\\x" ++ hex 2 code
    else if code < 0x10000 then "\\u" ++ hex 4 code
    else "\\U" ++ hex 8 code

/-- How one character is written inside quotes. -/
def escape (c : Char) : String :=
  if c == '"' then "\\\""
  else if c == '\\' then "\\\\"
  else if isPrintable c then String.singleton c
  else escapeControl c.toNat

end JvmAot.Quoted

namespace JvmAot

/-- The text in double quotes, with every character escaped that could not be told otherwise. -/
def quote (text : String) : String :=
  "\"" ++ String.join (text.toList.map Quoted.escape) ++ "\""

end JvmAot
