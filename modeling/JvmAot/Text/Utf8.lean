/-! # Reading bytes as text

Files may hold any bytes. `Utf8.decode` shows them as text: well-formed UTF-8 sequences become their
characters, and each byte that starts no such sequence becomes the replacement character. -/

namespace JvmAot.Utf8

/-- How many bytes follow the lead byte `lead` of a sequence, and the bits that `lead` itself gives. -/
def lead? (lead : UInt8) : Option (Nat × Nat) :=
  let n := lead.toNat
  if n < 0x80 then some (0, n)
  else if 0xc2 ≤ n && n < 0xe0 then some (1, n - 0xc0)
  else if 0xe0 ≤ n && n < 0xf0 then some (2, n - 0xe0)
  else if 0xf0 ≤ n && n < 0xf5 then some (3, n - 0xf0)
  else none

/-- The bounds of the byte after `lead`. They leave each character one spelling, and none to
surrogates and to numbers beyond the last code point. -/
def secondBounds (lead : UInt8) : Nat × Nat :=
  match lead.toNat with
  | 0xe0 => (0xa0, 0xbf)
  | 0xed => (0x80, 0x9f)
  | 0xf0 => (0x90, 0xbf)
  | 0xf4 => (0x80, 0x8f)
  | _ => (0x80, 0xbf)

/-- Whether `tail` may follow `lead`. -/
def isTail (lead : UInt8) : List UInt8 → Bool
  | [] => true
  | b :: rest =>
    (secondBounds lead).1 ≤ b.toNat && b.toNat ≤ (secondBounds lead).2 &&
      rest.all fun c => 0x80 ≤ c.toNat && c.toNat ≤ 0xbf

/-- The character that starts with the byte `lead`, and how many of the bytes after it belong to it. -/
def decodeChar (lead : UInt8) (rest : List UInt8) : Char × Nat :=
  match lead? lead with
  | none => ('�', 0)
  | some (count, bits) =>
    let tail := rest.take count
    if tail.length == count && isTail lead tail then
      (Char.ofNat (tail.foldl (fun n b => n * 0x40 + b.toNat % 0x40) bits), count)
    else ('�', 0)

/-- The characters of a byte sequence in reverse, before those of `acc`. -/
def decodeOnto (acc : List Char) : List UInt8 → List Char
  | [] => acc
  | lead :: rest =>
    let (c, count) := decodeChar lead rest
    decodeOnto (c :: acc) (rest.drop count)
termination_by bytes => bytes.length
decreasing_by simp only [List.length_drop, List.length_cons]; omega

/-- The text of a byte sequence. -/
def decode (bytes : ByteArray) : String :=
  String.ofList (decodeOnto [] bytes.toList).reverse

end JvmAot.Utf8
