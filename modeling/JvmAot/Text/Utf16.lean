/-! # UTF-16 code units

Strings of the compiled program are sequences of 16-bit units, which need not pair up into characters.
`Utf16.encode` gives the units of a text and `Utf16.decode` reads units as text, with the replacement
character in place of every unpaired surrogate. -/

namespace JvmAot.Utf16

/-- The units of one character: itself, or a high and a low surrogate above `0xffff`. -/
def encodeChar (c : Char) : List UInt16 :=
  if c.toNat < 0x10000 then [UInt16.ofNat c.toNat]
  else
    [UInt16.ofNat (0xd800 + (c.toNat - 0x10000) / 0x400),
      UInt16.ofNat (0xdc00 + (c.toNat - 0x10000) % 0x400)]

/-- The units of a text. -/
def encode (text : String) : List UInt16 :=
  text.toList.flatMap encodeChar

/-- A unit that starts a pair. -/
def isHigh (u : UInt16) : Bool :=
  0xd800 ≤ u.toNat && u.toNat < 0xdc00

/-- A unit that ends a pair. -/
def isLow (u : UInt16) : Bool :=
  0xdc00 ≤ u.toNat && u.toNat < 0xe000

/-- The character of a unit that is not part of a pair. -/
def lone (u : UInt16) : Char :=
  if isHigh u || isLow u then '�' else Char.ofNat u.toNat

/-- The character of a high and a low surrogate. -/
def paired (high low : UInt16) : Char :=
  Char.ofNat (0x10000 + (high.toNat - 0xd800) * 0x400 + (low.toNat - 0xdc00))

/-- The characters that units spell; unpaired surrogates are replaced. -/
def decodeChars : List UInt16 → List Char
  | [] => []
  | [u] => [lone u]
  | u :: v :: rest =>
    if isHigh u && isLow v then paired u v :: decodeChars rest
    else lone u :: decodeChars (v :: rest)

/-- The text that units spell; unpaired surrogates are replaced. -/
def decode (units : List UInt16) : String :=
  String.ofList (decodeChars units)

end JvmAot.Utf16
