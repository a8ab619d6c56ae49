import JvmAot.Proofs.ClassFile.Reads

/-! # Entries of the constant pool as rows of numbers

Apart from texts, an entry is a tag and a row of numbers whose sizes the tag fixes (`PoolEntry.widths?`).
`PoolEntry.decode_eq` says so of the decoder: it reads the tag, then the text or the row, and only then looks whether
the bytes have ended. -/

namespace JvmAot

open Decoder

namespace Decoder

/-- Reads a row of numbers of the given sizes. -/
def numbers : List Nat → Decoder (List Nat)
  | [] => pure []
  | width :: widths => do
    let n ← Reading.number width
    let ns ← numbers widths
    pure (n :: ns)

theorem delimits_numbers (widths : List Nat) : (numbers widths).Delimits := by
  induction widths with
  | nil => exact delimits_pure []
  | cons width widths ih =>
    exact (delimits_number width).bind fun n => ih.bind fun ns => delimits_pure (n :: ns)

end Decoder

namespace PoolEntry

/-- The sizes of the numbers in an entry that is not a text. -/
def widths? : (tag : Nat) → Option (List Nat)
  | 3 | 4 => some [4]
  | 5 | 6 => some [8]
  | 7 | 8 | 16 | 19 | 20 => some [2]
  | 9 | 10 | 11 | 12 | 17 | 18 => some [2, 2]
  | 15 => some [1, 2]
  | _ => none

/-- The entry that a tag and a row of numbers stand for. -/
def ofNumbers : (tag : Nat) → List Nat → PoolEntry
  | 3, [n] => integer (UInt32.ofNat n)
  | 4, [n] => float (UInt32.ofNat n)
  | 5, [n] => long (UInt64.ofNat n)
  | 6, [n] => double (UInt64.ofNat n)
  | 7, [n] => classRef n
  | 8, [n] => string n
  | 9, [m, n] => member 9 m n
  | 10, [m, n] => member 10 m n
  | 11, [m, n] => member 11 m n
  | 12, [m, n] => nameAndType m n
  | tag, _ => uninterpreted tag

/-- How messages name a slot of the pool. -/
def place (slot : Nat) : String :=
  "constant pool entry " ++ toString slot

/-- The entry of slot `slot`, unless the bytes have ended. -/
def complete (slot : Nat) (entry : PoolEntry) : Decoder PoolEntry := do
  if ← Reading.isExhausted then
    Decoder.within (place (if entry.takesTwoSlots then slot + 1 else slot)) (Decoder.fail .unexpectedEnd)
  pure entry

/-- Reads the bytes that spell a text, after their number. -/
def spelling : Decoder (List UInt8) := do
  let length ← Reading.u2
  Reading.take length

/-- The text that the bytes spell. -/
def ofSpelling (slot : Nat) (spelling : List UInt8) : Decoder PoolEntry :=
  match ModifiedUtf8.decode spelling with
  | some units => complete slot (utf8 units)
  | none => Decoder.within (place slot) (Decoder.fail .invalidUtf8)

/-- Reads what follows the tag of a text. -/
def decodeText (slot : Nat) : Decoder PoolEntry :=
  spelling >>= ofSpelling slot

/-- Refuses a tag that is not known, unless there was none. -/
def decodeUnknown (slot tag : Nat) : Decoder PoolEntry := do
  if !(← Reading.isExhausted) then Decoder.fail (.invalidTag tag slot)
  complete slot unusable

/-- Reads what follows a tag. -/
def decodeTagged (slot tag : Nat) : Decoder PoolEntry :=
  match widths? tag with
  | some widths => numbers widths >>= fun ns => complete slot (ofNumbers tag ns)
  | none => if tag = 1 then decodeText slot else decodeUnknown slot tag

theorem decode_eq (slot : Nat) : decode slot = liftM Reading.u1 >>= decodeTagged slot := by
  unfold decode
  refine bind_congr fun tag => ?_
  unfold decodeTagged
  dsimp only
  split
  case h_1 =>
    refine Eq.trans ?_ (bind_assoc _ _ (ofSpelling slot)).symm
    refine bind_congr fun length => bind_congr fun bytes => ?_
    unfold ofSpelling
    cases ModifiedUtf8.decode bytes <;> rfl
  case h_18 htext _ _ _ _ _ _ _ _ _ _ _ _ _ _ _ _ =>
    have hunknown : widths? tag = none := by
      unfold widths?
      split <;> first | contradiction | rfl
    rw [hunknown, if_neg htext]
    rfl
  all_goals rfl

theorem reads_complete (slot : Nat) (entry : PoolEntry) : (complete slot entry).Reads [] entry :=
  fun _ _ => rfl

theorem reads_spelling {content : List UInt8} (h : 2 + Cursor.bigEndian (content.take 2) = content.length) :
    spelling.Reads content (content.drop 2) := by
  have hfirst : (content.take 2).length = 2 := List.length_take_of_le (by omega)
  have hrest : (content.drop 2).length = Cursor.bigEndian (content.take 2) := by
    rw [List.length_drop]
    omega
  have hspelling := (reads_number hfirst).bind (f := fun length => liftM (Reading.take length)) (reads_take hrest)
  rwa [List.take_append_drop] at hspelling

theorem reads_decodeText (slot : Nat) {content : List UInt8} {units : List UInt16}
    (hlength : 2 + Cursor.bigEndian (content.take 2) = content.length)
    (hunits : ModifiedUtf8.decode (content.drop 2) = some units) : (decodeText slot).Reads content (utf8 units) := by
  have hentry : (ofSpelling slot (content.drop 2)).Reads [] (utf8 units) := by
    rw [ofSpelling, hunits]
    exact reads_complete slot (utf8 units)
  exact (reads_spelling hlength).bind_last hentry

theorem delimits_complete (slot : Nat) (entry : PoolEntry) : (complete slot entry).Delimits := by
  refine delimits_isExhausted.bind fun marked => ?_
  dsimp only
  split
  · exact ((delimits_fail _).within _).bind fun _ => delimits_pure entry
  · exact delimits_pure entry

theorem delimits_decodeText (slot : Nat) : (decodeText slot).Delimits := by
  refine .bind ((delimits_number 2).bind fun length => delimits_take length) fun spelling => ?_
  unfold ofSpelling
  split
  · exact delimits_complete slot _
  · exact (delimits_fail _).within _

theorem delimits_decodeUnknown (slot tag : Nat) : (decodeUnknown slot tag).Delimits := by
  refine delimits_isExhausted.bind fun marked => ?_
  dsimp only
  split
  · exact (delimits_fail _).bind fun _ => delimits_complete slot unusable
  · exact delimits_complete slot unusable

theorem delimits_decode (slot : Nat) : (decode slot).Delimits := by
  rw [decode_eq]
  refine (delimits_number 1).bind fun tag => ?_
  unfold decodeTagged
  split
  · exact (delimits_numbers _).bind fun ns => delimits_complete slot _
  · split
    · exact delimits_decodeText slot
    · exact delimits_decodeUnknown slot tag

end PoolEntry

end JvmAot
