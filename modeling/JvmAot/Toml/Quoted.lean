import JvmAot.Text.Quoted

/-! # Quoted texts and keys

Texts are written between quotation marks, with escapes for the quotation mark, the backslash and
control characters. A key is a list of parts; a part that is not made of letters, digits, `_` and `-`
alone is quoted. -/

namespace JvmAot.Toml

/-- A character between quotation marks. -/
def escape (c : Char) : List Char :=
  if c = '"' then ['\\', '"']
  else if c = '\\' then ['\\', '\\']
  else if c = '\x08' then ['\\', 'b']
  else if c = '\t' then ['\\', 't']
  else if c = '\n' then ['\\', 'n']
  else if c = '\x0c' then ['\\', 'f']
  else if c = '\r' then ['\\', 'r']
  else if c.toNat < 0x20 || c.toNat = 0x7f then '\\' :: 'u' :: (Quoted.hex 4 c.toNat).toList
  else [c]

/-- A text between quotation marks. -/
def quoted (text : String) : String :=
  String.ofList ('"' :: text.toList.flatMap escape ++ ['"'])

/-- The parts of a key from the outside in. -/
abbrev Key := List String

/-- Whether a character may stand in a part of a key without quotation marks. -/
def isBare (c : Char) : Bool :=
  c.isAlphanum || c == '_' || c == '-'

/-- A part of a key as it is written. -/
def Key.part (part : String) : String :=
  if part ≠ "" && part.all isBare then part else quoted part

/-- A key as it is written. -/
def Key.text (key : Key) : String :=
  ".".intercalate (List.map Key.part key)

end JvmAot.Toml
