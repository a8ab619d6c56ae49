import JvmAot.Failure

/-! # Reading bytes in order

A cursor stands in front of the bytes that are still unread. A read beyond the last byte takes nothing,
yields zero and marks the cursor as exhausted; from then on every read does so. A decoder therefore
looks at the mark once per structure, and whatever it looks up before with a zero index is refused
first. -/

namespace JvmAot

/-- The unread bytes and how many came before them. -/
structure Cursor where
  rest : List UInt8
  position : Nat := 0
  /-- Whether some read went beyond the end. -/
  isExhausted : Bool := false
  deriving DecidableEq, Repr, Inhabited

namespace Cursor

/-- The bytes of a big-endian number, most significant first. -/
def bigEndian (bytes : List UInt8) : Nat :=
  bytes.foldl (fun n b => n * 256 + b.toNat) 0

/-- The signed number with the given number of bits that `n` stands for in two's complement. -/
def signed (bits n : Nat) : Int :=
  (n : Int).bmod (1 <<< bits)

end Cursor

/-- Reads that cannot fail. -/
abbrev Reading := StateM Cursor

namespace Reading

/-- Takes the next `count` bytes, or nothing if there are not that many. -/
def take (count : Nat) : Reading (List UInt8) := fun c =>
  if c.isExhausted then ([], c)
  else
    let (bytes, rest) := c.rest.splitAt count
    if bytes.length = count then (bytes, { c with rest, position := c.position + count })
    else ([], { c with isExhausted := true })

/-- Reads a number of `count` bytes. -/
def number (count : Nat) : Reading Nat :=
  Cursor.bigEndian <$> take count

def u1 : Reading Nat := number 1
def u2 : Reading Nat := number 2
def u4 : Reading Nat := number 4
def u8 : Reading Nat := number 8

/-- Whether some read went beyond the end. -/
def isExhausted : Reading Bool :=
  Cursor.isExhausted <$> get

end Reading

/-- Reads that can fail. -/
abbrev Decoder := StateT Cursor (Except Failure)

namespace Decoder

instance : MonadLift Reading Decoder := ⟨fun reading c => .ok (reading c)⟩

/-- Fails with a cause. -/
def fail {α : Type} (cause : Cause) : Decoder α :=
  throw (cause : Failure)

/-- Names the place of any failure of a decoder. -/
def within {α : Type} (place : String) (d : Decoder α) : Decoder α := fun c =>
  Failure.locate place (d c)

/-- Fails if some read went beyond the end. -/
def checkEnd : Decoder Unit := do
  if ← Reading.isExhausted then fail .truncated

/-- The value of a look-up, or its failure. -/
def ofExcept {α : Type} (r : Except Failure α) : Decoder α := fun c =>
  r.map fun a => (a, c)

/-- Runs a decoder on all of `bytes`. -/
def decode {α : Type} (d : Decoder α) (bytes : List UInt8) : Except Failure α :=
  (d { rest := bytes }).map (·.1)

end Decoder

end JvmAot
