/-! # Modified UTF-8

Class files spell 16-bit units in groups of one to three bytes. Zero is spelled in two bytes, and a
character beyond the units in two groups of three, one for each surrogate. -/

namespace JvmAot.ModifiedUtf8

/-- A byte that continues a group. -/
def isTail (b : UInt8) : Bool :=
  0x80 ≤ b.toNat && b.toNat < 0xc0

/-- The unit that the first group spells, and what follows the group. -/
def decodeUnit : List UInt8 → Option (UInt16 × List UInt8)
  | [] => none
  | a :: rest =>
    if a.toNat < 0x80 then some (UInt16.ofNat a.toNat, rest)
    else if 0xc0 ≤ a.toNat && a.toNat < 0xe0 then
      match rest with
      | b :: rest =>
        if isTail b then some (UInt16.ofNat (a.toNat % 0x20 * 0x40 + b.toNat % 0x40), rest) else none
      | [] => none
    else if 0xe0 ≤ a.toNat && a.toNat < 0xf0 then
      match rest with
      | b :: c :: rest =>
        if isTail b && isTail c then
          some (UInt16.ofNat (a.toNat % 0x10 * 0x1000 + b.toNat % 0x40 * 0x40 + c.toNat % 0x40), rest)
        else none
      | _ => none
    else none

/-- A group has at least one byte. -/
theorem length_lt_of_decodeUnit {bytes rest : List UInt8} {u : UInt16}
    (h : decodeUnit bytes = some (u, rest)) : rest.length < bytes.length := by
  unfold decodeUnit at h
  repeat' split at h
  all_goals simp at h
  all_goals
    obtain ⟨-, rfl⟩ := h
    simp only [List.length_cons]
    omega

/-- The units that a sequence of groups spells, in reverse, before those of `acc`. -/
def decodeOnto (acc : List UInt16) (bytes : List UInt8) : Option (List UInt16) :=
  match bytes with
  | [] => some acc
  | a :: tail =>
    match h : decodeUnit (a :: tail) with
    | none => none
    | some (u, rest) =>
      have : rest.length < (a :: tail).length := length_lt_of_decodeUnit h
      decodeOnto (u :: acc) rest
termination_by bytes.length
decreasing_by exact this

/-- The units that a byte sequence spells, if it is made of groups. -/
def decode (bytes : List UInt8) : Option (List UInt16) :=
  (decodeOnto [] bytes).map List.reverse

end JvmAot.ModifiedUtf8
