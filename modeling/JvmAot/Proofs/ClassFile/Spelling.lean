import JvmAot.Proofs.ClassFile.PoolTable
import Mathlib.Logic.ExistsUnique

/-! # The bytes of a text split into groups in one way

A `ByteGroup` is one, two or three bytes with the marks of a group in their high bits; the other bits are those of a
unit. The decoder goes through groups: it accepts bytes exactly if they are those of a sequence of groups
(`exists_decode_iff`), and yields one unit for each (`decode_flatMap`). No two sequences have the same bytes
(`flatMap_bytes_injective`). Several groups have the same unit, and the format takes the one whose size is
`spelledSize` (`eq_encodeUnit_iff`). -/

namespace JvmAot.ModifiedUtf8

/-- Bytes with the marks `0`, `110 10` or `1110 10 10` in their high bits. -/
inductive ByteGroup where
  | one (a : UInt8) (lead : a &&& 0x80 = 0)
  | two (a b : UInt8) (lead : a &&& 0xe0 = 0xc0) (tail : b &&& 0xc0 = 0x80)
  | three (a b c : UInt8) (lead : a &&& 0xf0 = 0xe0) (middle : b &&& 0xc0 = 0x80) (tail : c &&& 0xc0 = 0x80)

namespace ByteGroup

def bytes : ByteGroup → List UInt8
  | one a _ => [a]
  | two a b .. => [a, b]
  | three a b c .. => [a, b, c]

/-- The bits behind the marks. -/
def unit : ByteGroup → UInt16
  | one a _ => a.toUInt16
  | two a b .. => (a &&& 0x1f).toUInt16 <<< 6 ||| (b &&& 0x3f).toUInt16
  | three a b c .. => (a &&& 0x0f).toUInt16 <<< 12 ||| (b &&& 0x3f).toUInt16 <<< 6 ||| (c &&& 0x3f).toUInt16

/-- The unit in the arithmetic of the decoder. -/
def number : ByteGroup → Nat
  | one a _ => a.toNat
  | two a b .. => a.toNat % 0x20 * 0x40 + b.toNat % 0x40
  | three a b c .. => a.toNat % 0x10 * 0x1000 + b.toNat % 0x40 * 0x40 + c.toNat % 0x40

end ByteGroup

/-! ### Marks and bits as numbers -/

section Bits
variable (a b c : UInt8)

/-- What is left of a number without its low bits. -/
theorem toNat_and_high {mask : UInt8} (h : mask ∈ [0x80, 0xc0, 0xe0, 0xf0]) :
    (a &&& mask).toNat = a.toNat - a.toNat % (256 - mask.toNat) := by
  obtain ⟨a⟩ := a
  revert mask a
  decide +kernel

theorem lead_one_iff : a &&& 0x80 = 0 ↔ a.toNat < 0x80 := by
  rw [← UInt8.toNat_inj, toNat_and_high a (by decide)]
  show a.toNat - a.toNat % 0x80 = 0 ↔ _
  omega

theorem lead_two_iff : a &&& 0xe0 = 0xc0 ↔ 0xc0 ≤ a.toNat ∧ a.toNat < 0xe0 := by
  rw [← UInt8.toNat_inj, toNat_and_high a (by decide)]
  show a.toNat - a.toNat % 0x20 = 0xc0 ↔ _
  omega

theorem lead_three_iff : a &&& 0xf0 = 0xe0 ↔ 0xe0 ≤ a.toNat ∧ a.toNat < 0xf0 := by
  rw [← UInt8.toNat_inj, toNat_and_high a (by decide)]
  show a.toNat - a.toNat % 0x10 = 0xe0 ↔ _
  omega

theorem tail_iff : a &&& 0xc0 = 0x80 ↔ 0x80 ≤ a.toNat ∧ a.toNat < 0xc0 := by
  rw [← UInt8.toNat_inj, toNat_and_high a (by decide)]
  show a.toNat - a.toNat % 0x40 = 0x80 ↔ _
  omega

theorem isTail_iff : isTail a = true ↔ a &&& 0xc0 = 0x80 := by
  rw [tail_iff, isTail, Bool.and_eq_true, decide_eq_true_eq, decide_eq_true_eq]

theorem toNat_and_low {mask : UInt8} (k : Nat) (h : mask.toNat = 1 <<< k - 1) :
    (a &&& mask).toUInt16.toNat = a.toNat % 1 <<< k := by
  rw [UInt8.toNat_toUInt16, UInt8.toNat_and, h, Nat.one_shiftLeft, Nat.and_two_pow_sub_one_eq_mod]

/-- Bits that do not meet are added. -/
theorem toNat_shiftLeft_or {high low k : UInt16} (hk : k.toNat < 16) (hhigh : high.toNat <<< k.toNat < 65536)
    (hlow : low.toNat < 1 <<< k.toNat) : (high <<< k ||| low).toNat = high.toNat <<< k.toNat + low.toNat := by
  rw [Nat.one_shiftLeft] at hlow
  rw [UInt16.toNat_or, UInt16.toNat_shiftLeft, Nat.mod_eq_of_lt hk, Nat.mod_eq_of_lt hhigh,
    Nat.shiftLeft_add_eq_or_of_lt hlow]

theorem toNat_append_six {high : UInt16} (hhigh : high.toNat < 0x400) :
    (high <<< 6 ||| (b &&& 0x3f).toUInt16).toNat = high.toNat * 0x40 + b.toNat % 0x40 := by
  have hlow : (b &&& 0x3f).toUInt16.toNat = b.toNat % 0x40 := toNat_and_low b 6 rfl
  have hor := toNat_shiftLeft_or (k := 6) (by decide) (show high.toNat <<< 6 < 65536 by omega)
    (show (b &&& 0x3f).toUInt16.toNat < 1 <<< 6 by omega)
  rw [hor, hlow]
  exact congrArg (· + _) (Nat.shiftLeft_eq ..)

theorem toNat_append_twelve :
    ((a &&& 0x0f).toUInt16 <<< 12 ||| (b &&& 0x3f).toUInt16 <<< 6 ||| (c &&& 0x3f).toUInt16).toNat =
      a.toNat % 0x10 * 0x1000 + b.toNat % 0x40 * 0x40 + c.toNat % 0x40 := by
  have hhigh : (a &&& 0x0f).toUInt16.toNat = a.toNat % 0x10 := toNat_and_low a 4 rfl
  have hmiddle : (b &&& 0x3f).toUInt16.toNat = b.toNat % 0x40 := toNat_and_low b 6 rfl
  have hlow := toNat_append_six c (show (b &&& 0x3f).toUInt16.toNat < 0x400 by omega)
  have hor := toNat_shiftLeft_or (k := 12) (by decide) (show (a &&& 0x0f).toUInt16.toNat <<< 12 < 65536 by omega)
    (show ((b &&& 0x3f).toUInt16 <<< 6 ||| (c &&& 0x3f).toUInt16).toNat < 1 <<< 12 by omega)
  rw [UInt16.or_assoc, hor, hlow, hhigh, hmiddle, Nat.add_assoc]
  exact congrArg (· + _) (Nat.shiftLeft_eq ..)

end Bits

namespace ByteGroup
variable {g g' : ByteGroup}

theorem toNat_unit (g : ByteGroup) : g.unit.toNat = g.number := by
  cases g with
  | one a => exact UInt8.toNat_toUInt16 a
  | two a b =>
    have hlead : (a &&& 0x1f).toUInt16.toNat = a.toNat % 0x20 := toNat_and_low a 5 rfl
    rw [unit, toNat_append_six b (by omega), hlead, number]
  | three a b c => exact toNat_append_twelve a b c

theorem ofNat_number (g : ByteGroup) : UInt16.ofNat g.number = g.unit := by
  rw [← toNat_unit, UInt16.ofNat_toNat]

theorem bytes_injective : Function.Injective bytes := by
  intro g g' h
  cases g <;> cases g' <;> simp_all [bytes]

/-- Of the groups with one unit, at most one has a given size. -/
theorem eq_of_unit_eq (hunit : g.unit = g'.unit) (hlength : g.bytes.length = g'.bytes.length) : g = g' := by
  have hnumber : g.number = g'.number := by rw [← toNat_unit, hunit, toNat_unit]
  apply bytes_injective
  cases g with
  | one a =>
    cases g' with
    | one a' => rw [bytes, bytes, UInt8.toNat_inj.1 hnumber]
    | two | three => cases hlength
  | two a b lead tail =>
    cases g' with
    | two a' b' lead' tail' =>
      rw [lead_two_iff] at lead lead'
      rw [tail_iff] at tail tail'
      dsimp only [number] at hnumber
      have ha : a = a' := UInt8.toNat_inj.1 (by omega)
      have hb : b = b' := UInt8.toNat_inj.1 (by omega)
      rw [bytes, bytes, ha, hb]
    | one | three => cases hlength
  | three a b c lead middle tail =>
    cases g' with
    | three a' b' c' lead' middle' tail' =>
      rw [lead_three_iff] at lead lead'
      rw [tail_iff] at middle middle' tail tail'
      dsimp only [number] at hnumber
      have ha : a = a' := UInt8.toNat_inj.1 (by omega)
      have hb : b = b' := UInt8.toNat_inj.1 (by omega)
      have hc : c = c' := UInt8.toNat_inj.1 (by omega)
      rw [bytes, bytes, ha, hb, hc]
    | one | two => cases hlength

/-! ### The first group -/

theorem decodeUnit_bytes (g : ByteGroup) (rest : List UInt8) : decodeUnit (g.bytes ++ rest) = some (g.unit, rest) := by
  rw [← ofNat_number]
  cases g with
  | one a lead =>
    rw [lead_one_iff] at lead
    rw [bytes, List.singleton_append, decodeUnit.eq_def]
    dsimp only
    rw [if_pos lead, number]
  | two a b lead tail =>
    rw [lead_two_iff] at lead
    rw [bytes, List.cons_append, List.singleton_append, decodeUnit.eq_def]
    dsimp only
    rw [if_neg (by omega), if_pos (by simpa using lead), if_pos ((isTail_iff b).2 tail), number]
  | three a b c lead middle tail =>
    rw [lead_three_iff] at lead
    rw [bytes, List.cons_append, List.cons_append, List.singleton_append, decodeUnit.eq_def]
    dsimp only
    rw [if_neg (by omega), if_neg (by simp; omega), if_pos (by simpa using lead), (isTail_iff b).2 middle,
      (isTail_iff c).2 tail, if_pos (by decide), number]

theorem exists_of_decodeUnit {bytes rest : List UInt8} {u : UInt16} (h : decodeUnit bytes = some (u, rest)) :
    ∃ g : ByteGroup, g.bytes ++ rest = bytes ∧ g.unit = u := by
  unfold decodeUnit at h
  split at h
  · cases h
  rename_i a _
  split at h
  · rename_i hlead
    cases h
    have lead := (lead_one_iff a).2 hlead
    exact ⟨one a lead, rfl, (ofNat_number (one a lead)).symm⟩
  split at h
  · rename_i hlead
    have lead := (lead_two_iff a).2 (by simpa using hlead)
    split at h
    · rename_i b _
      split at h
      · rename_i htail
        cases h
        have tail := (isTail_iff b).1 htail
        exact ⟨two a b lead tail, rfl, (ofNat_number (two a b lead tail)).symm⟩
      · cases h
    · cases h
  split at h
  · rename_i hlead
    have lead := (lead_three_iff a).2 (by simpa using hlead)
    split at h
    · rename_i b c _
      split at h
      · rename_i htails
        cases h
        obtain ⟨hmiddle, htail⟩ := Bool.and_eq_true_iff.1 htails
        have middle := (isTail_iff b).1 hmiddle
        have tail := (isTail_iff c).1 htail
        exact ⟨three a b c lead middle tail, rfl, (ofNat_number (three a b c lead middle tail)).symm⟩
      · cases h
    · cases h
  · cases h

/-- No group begins another one: the decoder, which finds both, stops at one place. -/
theorem bytes_append_inj {rest rest' : List UInt8} (h : g.bytes ++ rest = g'.bytes ++ rest') :
    g = g' ∧ rest = rest' := by
  have hdecode : some (g.unit, rest) = some (g'.unit, rest') := by
    rw [← decodeUnit_bytes, h, decodeUnit_bytes]
  obtain rfl : rest = rest' := congrArg Prod.snd (Option.some.inj hdecode)
  exact ⟨bytes_injective (List.append_cancel_right h), rfl⟩

end ByteGroup

open ByteGroup

/-! ### Sequences of groups -/

theorem flatMap_bytes_injective : Function.Injective (List.flatMap ByteGroup.bytes) := by
  intro groups groups' h
  induction groups generalizing groups' with
  | nil =>
    cases groups' with
    | nil => rfl
    | cons g' _ => cases g' <;> cases h
  | cons g groups ih =>
    cases groups' with
    | nil => cases g <;> cases h
    | cons g' groups' =>
      rw [List.flatMap_cons, List.flatMap_cons] at h
      obtain ⟨rfl, hrest⟩ := bytes_append_inj h
      rw [ih hrest]

theorem decodeOnto_flatMap (acc : List UInt16) (groups : List ByteGroup) :
    decodeOnto acc (groups.flatMap bytes) = some ((groups.map unit).reverse ++ acc) := by
  induction groups generalizing acc with
  | nil => simp [decodeOnto]
  | cons g groups ih =>
    rw [List.flatMap_cons, decodeOnto_of_decodeUnit (decodeUnit_bytes g _), ih, List.map_cons, List.reverse_cons,
      List.append_assoc, List.singleton_append]

theorem decode_flatMap (groups : List ByteGroup) : decode (groups.flatMap bytes) = some (groups.map unit) := by
  rw [decode, decodeOnto_flatMap, List.append_nil, Option.map_some, List.reverse_reverse]

theorem exists_of_decodeOnto {acc units : List UInt16} {bytes : List UInt8} (h : decodeOnto acc bytes = some units) :
    ∃ groups : List ByteGroup, groups.flatMap ByteGroup.bytes = bytes := by
  fun_induction decodeOnto acc bytes with
  | case1 => exact ⟨[], rfl⟩
  | case2 => cases h
  | case3 acc a tail u rest hunit _ ih =>
    obtain ⟨g, hg, -⟩ := exists_of_decodeUnit hunit
    obtain ⟨groups, rfl⟩ := ih h
    exact ⟨g :: groups, hg⟩

theorem exists_decode_iff {bytes : List UInt8} :
    (∃ units, decode bytes = some units) ↔ ∃ groups : List ByteGroup, groups.flatMap ByteGroup.bytes = bytes := by
  constructor
  · rintro ⟨units, h⟩
    obtain ⟨reversed, hreversed, -⟩ := Option.map_eq_some_iff.1 h
    exact exists_of_decodeOnto hreversed
  · rintro ⟨groups, rfl⟩
    exact ⟨_, decode_flatMap groups⟩

/-! ### The group of a unit -/

/-- How many bytes the format takes for a unit. -/
def spelledSize (u : UInt16) : Nat :=
  if 1 ≤ u.toNat ∧ u.toNat ≤ 0x7f then 1
  else if u.toNat ≤ 0x7ff then 2
  else 3

theorem length_encodeUnit (u : UInt16) : (encodeUnit u).length = spelledSize u := by
  unfold encodeUnit spelledSize
  grind

theorem exists_encodeUnit (u : UInt16) : ∃ g : ByteGroup, g.bytes = encodeUnit u ∧ g.unit = u := by
  obtain ⟨g, hg, hunit⟩ := exists_of_decodeUnit (decodeUnit_encodeUnit u [])
  exact ⟨g, List.append_cancel_right hg, hunit⟩

theorem eq_encodeUnit_iff {u : UInt16} {bytes : List UInt8} :
    bytes = encodeUnit u ↔ ∃ g : ByteGroup, g.bytes = bytes ∧ g.unit = u ∧ bytes.length = spelledSize u := by
  obtain ⟨g, hg, hunit⟩ := exists_encodeUnit u
  constructor
  · rintro rfl
    exact ⟨g, hg, hunit, length_encodeUnit u⟩
  · rintro ⟨g', rfl, hunit', hlength⟩
    rw [← hg, eq_of_unit_eq (hunit'.trans hunit.symm) (by rw [hlength, hg, length_encodeUnit])]

/-! ### Texts of the pool -/

theorem text_of_spelling {pool : Pool} {index : Nat} {text : String} {units : List UInt16}
    (hunits : decode (encode (Utf16.encode text)) = some units) (hentry : pool.entry? index = some (.utf8 units)) :
    pool.text index = .ok text := by
  obtain rfl : Utf16.encode text = units := Option.some.inj ((decode_encode _).symm.trans hunits)
  rw [Pool.text, Pool.utf8, hentry]
  exact congrArg Except.ok (Utf16.decode_encode text)

/-- The decoder inverts the format. A unit is spelled by the group that has this unit and the size of the format, and
any units come back from their spelling. A text comes back from every entry of a pool that holds what its spelling is
decoded as, so it is found again in a pool that was read from bytes. Bytes are accepted if and only if they split into
groups; they do so in one way, and the result has the unit of each group. -/
theorem decode_inverts :
    (∀ (u : UInt16) (bytes : List UInt8),
      bytes = encodeUnit u ↔ ∃ g : ByteGroup, g.bytes = bytes ∧ g.unit = u ∧ bytes.length = spelledSize u) ∧
    (∀ units : List UInt16, decode (encode units) = some units) ∧
    (∀ text : String, ∃ units, decode (encode (Utf16.encode text)) = some units ∧
      ∀ (pool : Pool) (index : Nat), pool.entry? index = some (.utf8 units) → pool.text index = .ok text) ∧
    (∀ (image : PoolImage) (index : Nat) (text : String) (rest : List UInt8), image.Text index text →
      ∃ pool, Pool.decode.decode (image.bytes ++ rest) = .ok pool ∧ pool.text index = .ok text) ∧
    ∀ bytes : List UInt8,
      ((∃ units, decode bytes = some units) ↔ ∃ groups : List ByteGroup, groups.flatMap ByteGroup.bytes = bytes) ∧
      ∀ units, decode bytes = some units →
        (∃! groups : List ByteGroup, groups.flatMap ByteGroup.bytes = bytes) ∧
        ∀ groups : List ByteGroup, groups.flatMap ByteGroup.bytes = bytes → units = groups.map ByteGroup.unit := by
  refine ⟨fun u bytes => eq_encodeUnit_iff, decode_encode, fun text => ?_, fun image index text rest h => ?_,
    fun bytes => ⟨exists_decode_iff, fun units h => ⟨?_, ?_⟩⟩⟩
  · exact ⟨_, decode_encode _, fun pool index hentry => text_of_spelling (decode_encode _) hentry⟩
  · exact ⟨image.table, image.reads_decode.decode ⟨rest, rfl⟩, PoolImage.text_of_text h⟩
  · obtain ⟨groups, hgroups⟩ := exists_decode_iff.1 ⟨units, h⟩
    exact ⟨groups, hgroups, fun groups' hgroups' => flatMap_bytes_injective (hgroups'.trans hgroups.symm)⟩
  · rintro groups rfl
    exact Option.some.inj (h.symm.trans (decode_flatMap groups))

/-- A pool with one text, of a letter, zero and two surrogates. -/
def spelledPool : PoolImage where
  items := [.utf8 (Utf16.encode "a\x00😀") (by decide +kernel)]
  fits := by decide

theorem spelledPool_inverted :
    spelledPool.bytes = [0, 2, 1, 0, 9, 0x61, 0xc0, 0x80, 0xed, 0xa0, 0xbd, 0xed, 0xb8, 0x80] ∧
    (∃ pool, Pool.decode.decode (spelledPool.bytes ++ []) = .ok pool ∧ pool.text 1 = .ok "a\x00😀") ∧
    Pool.text ⟨#[.unusable, .utf8 [0x61, 0, 0xd83d, 0xde00]]⟩ 1 = .ok "a\x00😀" ∧
    (∃! groups : List ByteGroup,
      groups.flatMap ByteGroup.bytes = [0x61, 0xc0, 0x80, 0xed, 0xa0, 0xbd, 0xed, 0xb8, 0x80]) ∧
    ¬ ∃ groups : List ByteGroup, groups.flatMap ByteGroup.bytes = [0xc3] := by
  obtain ⟨-, hunits, htext, himage, hsplit⟩ := decode_inverts
  have hspelling : encode [0x61, 0, 0xd83d, 0xde00] = [0x61, 0xc0, 0x80, 0xed, 0xa0, 0xbd, 0xed, 0xb8, 0x80] := by
    decide +kernel
  have hencode : Utf16.encode "a\x00😀" = [0x61, 0, 0xd83d, 0xde00] := by decide +kernel
  have hdecode := hunits [0x61, 0, 0xd83d, 0xde00]
  obtain ⟨units, hdecoded, hfound⟩ := htext "a\x00😀"
  rw [hencode, hdecode] at hdecoded
  cases hdecoded
  rw [hspelling] at hdecode
  refine ⟨by decide +kernel, himage spelledPool 1 _ [] ⟨_, rfl⟩, hfound _ 1 rfl, ((hsplit _).2 _ hdecode).1, ?_⟩
  have hcut : decode [0xc3] = none := by decide +kernel
  rw [← (hsplit _).1, hcut]
  rintro ⟨units, ⟨⟩⟩

end JvmAot.ModifiedUtf8
