import JvmAot.Proofs.Asm.Symbols
import JvmAot.Proofs.Rv32.Memory
import Mathlib.Data.Int.ModEq

/-! # The bytes that data directives define

`assemble?` reads a text of labels and data directives the way an assembler does, from a given position on. An item that
is a number stands for its lowest bytes, lowest byte first (`littleEndian`); any other item is a symbol and stands for
its address. Text that is neither a label nor one of the known directives has no reading. -/

namespace JvmAot

/-! ### Numbers -/

/-- The number that an item of data is, if it is one. -/
def numeral? (item : String) : Option Int :=
  if isNumeral item then
    match item.toList with
    | '-' :: digits => some (-Nat.ofDigitChars 10 digits 0)
    | digits => some (Nat.ofDigitChars 10 digits 0)
  else none

theorem numeral?_toString (n : Int) : numeral? (toString n) = some n := by
  have hdigits (k : Nat) : Nat.ofDigitChars 10 (toString k).toList 0 = k := by
    rw [Nat.toString_eq_ofList_toDigits, String.toList_ofList, Nat.ofDigitChars_ten_toDigits]
  rw [numeral?, if_pos (isNumeral_toString n)]
  cases n with
  | ofNat n =>
    have hhead : ∀ digits, (toString n).toList ≠ '-' :: digits := by
      intro digits heq
      have hall := areDigits_toString n
      rw [heq] at hall
      simp [areDigits] at hall
    change (match (toString n).toList with
      | '-' :: digits => some (-(Nat.ofDigitChars 10 digits 0 : Int))
      | digits => some (Nat.ofDigitChars 10 digits 0 : Int)) = _
    split
    · rename_i digits heq
      exact absurd heq (hhead digits)
    · rw [hdigits]
      rfl
  | negSucc n =>
    have htext : (toString (Int.negSucc n)).toList = '-' :: (toString (n + 1)).toList := by
      rw [show toString (Int.negSucc n) = "-" ++ toString (n + 1) from rfl, String.toList_append]
      rfl
    simp only [htext, hdigits]
    rfl

theorem numeral?_eq_none {item : String} (h : isNumeral item = false) : numeral? item = none := by
  rw [numeral?, h]
  rfl

/-- The lowest bytes of a number, lowest first. -/
def littleEndian : (size : Nat) → Int → List Byte
  | 0, _ => []
  | size + 1, n => BitVec.ofInt 8 n :: littleEndian size (n / 256)

@[simp] theorem length_littleEndian (size : Nat) (n : Int) : (littleEndian size n).length = size := by
  induction size generalizing n with
  | zero => rfl
  | succ size ih => rw [littleEndian, List.length_cons, ih]

theorem littleEndian_add (size more : Nat) (n : Int) :
    littleEndian (size + more) n = littleEndian size n ++ littleEndian more (n / 256 ^ size) := by
  induction size generalizing n with
  | zero => simp [littleEndian]
  | succ size ih =>
    rw [Nat.add_right_comm, littleEndian, littleEndian, ih, List.cons_append,
      Int.ediv_ediv_of_nonneg (by decide), Int.pow_succ']

/-- Only the bits that fit matter. -/
theorem littleEndian_congr {size : Nat} {n m : Int} (h : n ≡ m [ZMOD 256 ^ size]) :
    littleEndian size n = littleEndian size m := by
  induction size generalizing n m with
  | zero => rfl
  | succ size ih =>
    obtain ⟨q, hq⟩ := h.symm.dvd
    obtain rfl : n = m + 256 * (256 ^ size * q) := by
      rw [← Int.mul_assoc, ← Int.pow_succ', ← hq]
      omega
    have hbyte : BitVec.ofInt 8 (m + 256 * (256 ^ size * q)) = BitVec.ofInt 8 m := by
      refine BitVec.eq_of_toInt_eq ?_
      rw [BitVec.toInt_ofInt, BitVec.toInt_ofInt]
      exact Int.add_mul_bmod_self_left m 256 (256 ^ size * q)
    have hrest : (m + 256 * (256 ^ size * q)) / 256 ≡ m / 256 [ZMOD 256 ^ size] := by
      rw [Int.add_mul_ediv_left _ _ (by decide)]
      exact Int.add_modulus_mul_modEq_iff.2 rfl
    rw [littleEndian, littleEndian, hbyte, ih hrest]

/-! ### Directives -/

/-- A byte of data: a number, or a part of the address of a symbol. -/
inductive AssembledByte where
  | number (value : Byte)
  | address (symbol : String) (part : Nat)
  deriving DecidableEq

/-- The lowest bytes of a number as data. -/
def numberData (size : Nat) (n : Int) : List AssembledByte :=
  (littleEndian size n).map .number

/-- The bytes of the address of a symbol. -/
def addressData (size : Nat) (symbol : String) : List AssembledByte :=
  (List.range size).map (.address symbol)

/-- A number of zero bytes. -/
def zeroData (count : Nat) : List AssembledByte :=
  List.replicate count (.number 0)

theorem numberData_congr {size : Nat} {n m : Int} (h : n ≡ m [ZMOD 256 ^ size]) :
    numberData size n = numberData size m := by
  rw [numberData, numberData, littleEndian_congr h]

@[simp] theorem length_numberData (size : Nat) (n : Int) : (numberData size n).length = size := by
  rw [numberData, List.length_map, length_littleEndian]

@[simp] theorem length_addressData (size : Nat) (symbol : String) : (addressData size symbol).length = size := by
  rw [addressData, List.length_map, List.length_range]

@[simp] theorem length_zeroData (count : Nat) : (zeroData count).length = count :=
  List.length_replicate

/-- The bytes of an item. -/
def itemData (size : Nat) (item : String) : List AssembledByte :=
  match numeral? item with
  | some n => numberData size n
  | none => addressData size item

@[simp] theorem itemData_toString (size : Nat) (n : Int) : itemData size (toString n) = numberData size n := by
  rw [itemData, numeral?_toString]

@[simp] theorem length_itemData (size : Nat) (item : String) : (itemData size item).length = size := by
  unfold itemData
  split <;> simp

/-- The count that an item is, if it is one. -/
def count? (item : String) : Option Nat :=
  match numeral? item with
  | some (.ofNat n) => some n
  | _ => none

@[simp] theorem count?_toString (n : Nat) : count? (toString (n : Int)) = some n := by
  rw [count?, numeral?_toString]

/-- The number of bytes from a position to the next multiple of `bytes`. -/
def paddingTo (bytes position : Nat) : Nat :=
  (bytes - position % bytes) % bytes

/-- The bytes of a directive that stands at a position. -/
def directiveData? (position : Nat) : (name : String) → (items : List String) → Option (List AssembledByte)
  | ".byte", items => some (items.flatMap (itemData 1))
  | ".half", items => some (items.flatMap (itemData 2))
  | ".word", items => some (items.flatMap (itemData 4))
  | ".zero", [count] => (count? count).map zeroData
  | ".balign", [bytes] => (count? bytes).map fun bytes => zeroData (paddingTo bytes position)
  | _, _ => none

/-- The bytes of a line that stands at a position. -/
def Line.data? (position : Nat) : Line → Option (List AssembledByte)
  | label _ => some []
  | directive name items => directiveData? position name items
  | _ => none

/-- The bytes of a text that starts at a position. -/
def assemble? (position : Nat) : List Line → Option (List AssembledByte)
  | [] => some []
  | line :: rest =>
    match line.data? position with
    | none => none
    | some bytes => (assemble? (position + bytes.length) rest).map (bytes ++ ·)

theorem assemble?_append {position : Nat} {lines more : List Line} {bytes bytes' : List AssembledByte}
    (h : assemble? position lines = some bytes) (h' : assemble? (position + bytes.length) more = some bytes') :
    assemble? position (lines ++ more) = some (bytes ++ bytes') := by
  induction lines generalizing position bytes with
  | nil =>
    cases h
    exact h'
  | cons line rest ih =>
    rw [List.cons_append, assemble?] at *
    split at h
    · cases h
    · rename_i first hfirst
      obtain ⟨later, hlater, rfl⟩ := Option.map_eq_some_iff.1 h
      rw [List.length_append, ← Nat.add_assoc] at h'
      simp only [ih hlater h', Option.map_some, List.append_assoc]

end JvmAot
