import JvmAot.ClassFile.ModifiedUtf8
import JvmAot.Text.Utf16

/-! # Texts come back from their units, and units from their bytes

A text is written as 16-bit units and these as bytes. Both steps can be undone: `Utf16.decode_encode` and
`ModifiedUtf8.decode_encode`. In the other direction, units come back from their text unless a surrogate was replaced
in it (`Utf16.eq_encode_of_decode`). -/

namespace JvmAot

namespace Utf16

/-! ### Characters -/

theorem toNat_lone {c : Char} (h : c.toNat < 0x10000) : (UInt16.ofNat c.toNat).toNat = c.toNat :=
  UInt16.toNat_ofNat_of_lt h

/-- No character is a surrogate. -/
theorem not_surrogate (c : Char) : c.toNat < 0xd800 ∨ 0xe000 ≤ c.toNat := by
  rcases c.valid with h | h
  · exact .inl h
  · exact .inr h.1

theorem toNat_lt (c : Char) : c.toNat < 0x110000 := by
  rcases c.valid with h | h
  · exact Nat.lt_trans h (by decide)
  · exact h.2

theorem decodeChars_cons {u : UInt16} (h : isHigh u = false) (rest : List UInt16) :
    decodeChars (u :: rest) = lone u :: decodeChars rest := by
  cases rest with
  | nil => rfl
  | cons v rest => rw [decodeChars, h, Bool.false_and, if_neg (by decide)]

theorem decodeChars_encodeChar (c : Char) (rest : List UInt16) :
    decodeChars (encodeChar c ++ rest) = c :: decodeChars rest := by
  have hlt := toNat_lt c
  unfold encodeChar
  split
  · rename_i hone
    have hc := not_surrogate c
    have hunit := toNat_lone hone
    have hhigh : isHigh (UInt16.ofNat c.toNat) = false := by
      simp only [isHigh, hunit, Bool.and_eq_false_iff, decide_eq_false_iff_not]
      omega
    have hlow : isLow (UInt16.ofNat c.toNat) = false := by
      simp only [isLow, hunit, Bool.and_eq_false_iff, decide_eq_false_iff_not]
      omega
    rw [List.singleton_append, decodeChars_cons hhigh, lone, hhigh, hlow, Bool.or_self, if_neg (by decide), hunit,
      Char.ofNat_toNat]
  · rename_i htwo
    have hhigh : (UInt16.ofNat (0xd800 + (c.toNat - 0x10000) / 0x400)).toNat = 0xd800 + (c.toNat - 0x10000) / 0x400 :=
      UInt16.toNat_ofNat_of_lt (show _ < 65536 by omega)
    have hlow : (UInt16.ofNat (0xdc00 + (c.toNat - 0x10000) % 0x400)).toNat = 0xdc00 + (c.toNat - 0x10000) % 0x400 :=
      UInt16.toNat_ofNat_of_lt (show _ < 65536 by omega)
    have hpair : paired (UInt16.ofNat (0xd800 + (c.toNat - 0x10000) / 0x400))
        (UInt16.ofNat (0xdc00 + (c.toNat - 0x10000) % 0x400)) = c := by
      rw [paired, hhigh, hlow]
      rw [show 0x10000 + (0xd800 + (c.toNat - 0x10000) / 0x400 - 0xd800) * 0x400 +
        (0xdc00 + (c.toNat - 0x10000) % 0x400 - 0xdc00) = c.toNat by omega, Char.ofNat_toNat]
    rw [List.cons_append, List.singleton_append, decodeChars, hpair, if_pos]
    simp only [isHigh, isLow, hhigh, hlow, Bool.and_eq_true, decide_eq_true_eq]
    omega

theorem decodeChars_flatMap (chars : List Char) : decodeChars (chars.flatMap encodeChar) = chars := by
  induction chars with
  | nil => rfl
  | cons c chars ih => rw [List.flatMap_cons, decodeChars_encodeChar, ih]

/-- A text comes back from its units. -/
theorem decode_encode (text : String) : decode (encode text) = text := by
  rw [decode, encode, decodeChars_flatMap, String.ofList_toList]

/-! ### Units -/

theorem toNat_ofNat {n : Nat} (h : n.isValidChar) : (Char.ofNat n).toNat = n := by
  rw [Char.ofNat, dif_pos h]
  rfl

theorem encodeChar_lone {u : UInt16} (h : lone u ≠ '�') : encodeChar (lone u) = [u] := by
  have hlt : u.toNat < 65536 := u.toNat_lt
  unfold lone at h ⊢
  split at h
  · exact absurd rfl h
  · rename_i hsurrogate
    rw [if_neg hsurrogate]
    simp only [isHigh, isLow, Bool.or_eq_true, Bool.and_eq_true, decide_eq_true_eq] at hsurrogate
    have hvalid : u.toNat.isValidChar := by
      unfold Nat.isValidChar
      omega
    rw [encodeChar, toNat_ofNat hvalid, if_pos hlt, UInt16.ofNat_toNat]

theorem encodeChar_paired {u v : UInt16} (h : (isHigh u && isLow v) = true) : encodeChar (paired u v) = [u, v] := by
  simp only [isHigh, isLow, Bool.and_eq_true, decide_eq_true_eq] at h
  have hvalid : (0x10000 + (u.toNat - 0xd800) * 0x400 + (v.toNat - 0xdc00)).isValidChar := by
    unfold Nat.isValidChar
    omega
  have hhigh : 0xd800 + (0x10000 + (u.toNat - 0xd800) * 0x400 + (v.toNat - 0xdc00) - 0x10000) / 0x400 = u.toNat := by
    omega
  have hlow : 0xdc00 + (0x10000 + (u.toNat - 0xd800) * 0x400 + (v.toNat - 0xdc00) - 0x10000) % 0x400 = v.toNat := by
    omega
  rw [encodeChar, paired, toNat_ofNat hvalid, if_neg (by omega), hhigh, hlow, UInt16.ofNat_toNat, UInt16.ofNat_toNat]

theorem flatMap_decodeChars {units : List UInt16} (h : '�' ∉ decodeChars units) :
    (decodeChars units).flatMap encodeChar = units := by
  fun_induction decodeChars units with
  | case1 => rfl
  | case2 u =>
    rw [List.flatMap_singleton, encodeChar_lone fun heq => h (heq ▸ List.mem_singleton_self _)]
  | case3 u v rest hpair ih =>
    rw [List.flatMap_cons, encodeChar_paired hpair, ih fun hmem => h (List.mem_cons_of_mem _ hmem)]
    rfl
  | case4 u v rest _ ih =>
    rw [List.flatMap_cons, encodeChar_lone fun heq => h (heq ▸ List.mem_cons_self ..),
      ih fun hmem => h (List.mem_cons_of_mem _ hmem)]
    rfl

/-- Units come back from their text if none of them was replaced. -/
theorem eq_encode_of_decode {units : List UInt16} {text : String} (h : decode units = text) (hnone : '�' ∉ text.toList) :
    units = encode text := by
  subst h
  rw [decode, String.toList_ofList] at hnone
  rw [encode, decode, String.toList_ofList, flatMap_decodeChars hnone]

end Utf16

namespace ModifiedUtf8

/-! ### Groups of bytes -/

/-- The group of a unit. -/
def encodeUnit (u : UInt16) : List UInt8 :=
  let n := u.toNat
  if n ≠ 0 ∧ n < 0x80 then [UInt8.ofNat n]
  else if n < 0x800 then [UInt8.ofNat (0xc0 + n / 0x40), UInt8.ofNat (0x80 + n % 0x40)]
  else
    [UInt8.ofNat (0xe0 + n / 0x1000), UInt8.ofNat (0x80 + n / 0x40 % 0x40),
      UInt8.ofNat (0x80 + n % 0x40)]

/-- The spelling of a sequence of units. -/
def encode (units : List UInt16) : List UInt8 :=
  units.flatMap encodeUnit

theorem decodeUnit_encodeUnit (u : UInt16) (rest : List UInt8) : decodeUnit (encodeUnit u ++ rest) = some (u, rest) := by
  have hlt : u.toNat < 65536 := u.toNat_lt
  have hbyte {n : Nat} (h : n < 256) : (UInt8.ofNat n).toNat = n := UInt8.toNat_ofNat_of_lt h
  have htail (n : Nat) : isTail (UInt8.ofNat (0x80 + n % 0x40)) = true := by
    rw [isTail, hbyte (by omega)]
    simp only [Bool.and_eq_true, decide_eq_true_eq]
    omega
  unfold encodeUnit
  dsimp only
  split
  · rw [List.singleton_append, decodeUnit.eq_def]
    dsimp only
    rw [hbyte (by omega), if_pos (by omega), UInt16.ofNat_toNat]
  split
  · rw [List.cons_append, List.singleton_append, decodeUnit.eq_def]
    dsimp only
    rw [htail, if_pos rfl, hbyte (by omega), hbyte (by omega), if_neg (by omega), if_pos (by simp; omega)]
    rw [show (0xc0 + u.toNat / 0x40) % 0x20 * 0x40 + (0x80 + u.toNat % 0x40) % 0x40 = u.toNat by omega, UInt16.ofNat_toNat]
  · rw [List.cons_append, List.cons_append, List.singleton_append, decodeUnit.eq_def]
    dsimp only
    rw [htail, htail, Bool.and_self, hbyte (by omega), hbyte (by omega), hbyte (by omega), if_neg (by omega),
      if_neg (by simp), if_pos (by simp; omega), if_pos rfl]
    rw [show (0xe0 + u.toNat / 0x1000) % 0x10 * 0x1000 + (0x80 + u.toNat / 0x40 % 0x40) % 0x40 * 0x40 +
      (0x80 + u.toNat % 0x40) % 0x40 = u.toNat by omega, UInt16.ofNat_toNat]

theorem decodeOnto_of_decodeUnit {bytes rest : List UInt8} {u : UInt16} (h : decodeUnit bytes = some (u, rest))
    (acc : List UInt16) : decodeOnto acc bytes = decodeOnto (u :: acc) rest := by
  cases bytes with
  | nil => cases h
  | cons a tail =>
    rw [decodeOnto]
    split
    · simp_all
    · simp_all

theorem decodeOnto_encode (acc units : List UInt16) : decodeOnto acc (encode units) = some (units.reverse ++ acc) := by
  induction units generalizing acc with
  | nil => simp [encode, decodeOnto]
  | cons u units ih =>
    have hunit : decodeUnit (encode (u :: units)) = some (u, encode units) := decodeUnit_encodeUnit u (encode units)
    rw [decodeOnto_of_decodeUnit hunit, ih, List.reverse_cons, List.append_assoc, List.singleton_append]

/-- Units come back from their bytes. -/
theorem decode_encode (units : List UInt16) : decode (encode units) = some units := by
  rw [decode, decodeOnto_encode, List.append_nil, Option.map_some, List.reverse_reverse]

end ModifiedUtf8

end JvmAot
