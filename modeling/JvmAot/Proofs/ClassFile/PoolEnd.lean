import JvmAot.Proofs.ClassFile.Instructions
import JvmAot.Proofs.ClassFile.PoolEntries

/-! # Pools that are cut short

A read beyond the last byte yields zero and is noticed only after the entry it belongs to. So where the bytes end within
an entry, what was read of it must get as far as that check: numbers do whatever they are, and a text does because it is
read as empty. `Pool.EndsInside` says which bytes end within the entries of a pool. They are refused for ending, and all
others only as bad input (`Pool.decode_of_endsInside`, `Pool.refuses_decode`). -/

namespace JvmAot

open Decoder

theorem exists_split {bytes : List UInt8} {count : Nat} (h : count ≤ bytes.length) :
    ∃ first rest, bytes = first ++ rest ∧ first.length = count :=
  ⟨_, _, (List.take_append_drop count bytes).symm, List.length_take_of_le h⟩

theorem Reading.take_of_short {c : Cursor} {count : Nat} (h : c.isExhausted = true ∨ c.rest.length < count) :
    take count c = ([], { c with isExhausted := true }) := by
  obtain ⟨rest, position, marked⟩ := c
  cases marked with
  | true => rfl
  | false =>
    have hlength : (rest.splitAt count).1.length ≠ count := by
      rw [List.splitAt_eq, List.length_take]
      rcases h with h | h
      · cases h
      · dsimp only at h
        omega
    simp only [take, Bool.false_eq_true, if_false, if_neg hlength]

namespace Decoder
variable {c : Cursor} {count : Nat}

theorem take_of_short (h : c.isExhausted = true ∨ c.rest.length < count) :
    (liftM (Reading.take count) : Decoder (List UInt8)) c = .ok ([], { c with isExhausted := true }) :=
  congrArg Except.ok (Reading.take_of_short h)

theorem number_of_short (h : c.isExhausted = true ∨ c.rest.length < count) :
    (liftM (Reading.number count) : Decoder Nat) c = .ok (0, { c with isExhausted := true }) :=
  congrArg (fun r : List UInt8 × Cursor => Except.ok (Cursor.bigEndian r.1, r.2)) (Reading.take_of_short h)

/-- The size of a row of numbers. -/
def total (widths : List Nat) : Nat :=
  widths.foldr (· + ·) 0

theorem reads_numbers {widths : List Nat} {bytes : List UInt8} (h : bytes.length = total widths) :
    ∃ ns, (numbers widths).Reads bytes ns ∧ ns.length = widths.length := by
  induction widths generalizing bytes with
  | nil =>
    cases List.eq_nil_of_length_eq_zero h
    exact ⟨[], reads_pure [], rfl⟩
  | cons width widths ih =>
    have hsum : bytes.length = width + total widths := h
    obtain ⟨first, rest, rfl, hfirst⟩ := exists_split (show width ≤ bytes.length by omega)
    rw [List.length_append, hfirst] at hsum
    obtain ⟨ns, hreads, hlength⟩ := ih (Nat.add_left_cancel hsum)
    refine ⟨Cursor.bigEndian first :: ns, ?_, by rw [List.length_cons, hlength, List.length_cons]⟩
    exact (reads_number hfirst).bind (hreads.bind_last (reads_pure _))

theorem numbers_of_short {widths : List Nat} (h : c.isExhausted = true ∨ c.rest.length < total widths) :
    ∃ ns c', numbers widths c = .ok (ns, c') ∧ c'.isExhausted = true := by
  induction widths generalizing c with
  | nil => exact ⟨[], c, rfl, h.resolve_right (Nat.not_lt_zero _)⟩
  | cons width widths ih =>
    by_cases hfirst : c.isExhausted = true ∨ c.rest.length < width
    · obtain ⟨ns, c', hns, hmarked⟩ := ih (c := { c with isExhausted := true }) (.inl rfl)
      exact ⟨0 :: ns, c', (bind_eq_of_ok (number_of_short hfirst)).trans (bind_eq_of_ok hns), hmarked⟩
    · obtain ⟨hopen, hle⟩ := not_or.1 hfirst
      obtain ⟨bytes, position, marked⟩ := c
      cases (Bool.not_eq_true _).mp hopen
      obtain ⟨first, rest, rfl, hwidth⟩ := exists_split (Nat.not_lt.1 hle)
      have hshort : rest.length < total widths := by
        have hsum : (first ++ rest).length < width + total widths := h.resolve_left hopen
        rw [List.length_append] at hsum
        omega
      obtain ⟨ns, c', hns, hmarked⟩ := ih (c := ⟨rest, position + first.length, false⟩) (.inr hshort)
      exact ⟨_, c', ((reads_number hwidth).bind_eq rest position).trans (bind_eq_of_ok hns), hmarked⟩

end Decoder

/-! ### Entries -/

namespace PoolEntry
variable {tag : Nat} {widths : List Nat} {content bytes : List UInt8}

/-- How many bytes follow the tag of an entry. A text says so in the first two. -/
def contentSize? (tag : Nat) (content : List UInt8) : Option Nat :=
  match widths? tag with
  | some widths => some (total widths)
  | none => if tag = 1 then some (2 + Cursor.bigEndian (content.take 2)) else none

/-- Fewer bytes than the entry takes that they are the beginning of. -/
def CutShort : List UInt8 → Prop
  | [] => True
  | tag :: content => ∃ size, contentSize? tag.toNat content = some size ∧ content.length < size

/-- The bytes of an entry. -/
def Whole : List UInt8 → Prop
  | [] => False
  | tag :: content => contentSize? tag.toNat content = some content.length ∧
      (tag = 1 → (ModifiedUtf8.decode (content.drop 2)).isSome)

def slotsOf : List UInt8 → Nat
  | [] => 1
  | tag :: _ => if tag.toNat = 5 ∨ tag.toNat = 6 then 2 else 1

/-- Reading ended too early, which is reported at the slot `last`. -/
def ending (last : Nat) : Failure :=
  Failure.within (place last) Cause.unexpectedEnd

theorem tag_cases (tag : Nat) : (∃ widths, widths? tag = some widths) ∨ tag = 1 ∨ (widths? tag = none ∧ tag ≠ 1) := by
  cases hwidths : widths? tag with
  | some widths => exact .inl ⟨widths, rfl⟩
  | none =>
    by_cases htext : tag = 1
    · exact .inr (.inl htext)
    · exact .inr (.inr ⟨rfl, htext⟩)

theorem contentSize?_row (h : widths? tag = some widths) : contentSize? tag content = some (total widths) := by
  rw [contentSize?, h]

theorem decodeTagged_row (h : widths? tag = some widths) (slot : Nat) :
    decodeTagged slot tag = numbers widths >>= fun ns => complete slot (ofNumbers tag ns) := by
  rw [decodeTagged, h]

theorem contentSize?_unknown (hwidths : widths? tag = none) (htext : tag ≠ 1) : contentSize? tag content = none := by
  rw [contentSize?, hwidths]
  exact if_neg htext

theorem decodeTagged_unknown (hwidths : widths? tag = none) (htext : tag ≠ 1) (slot : Nat) :
    decodeTagged slot tag = decodeUnknown slot tag := by
  rw [decodeTagged, hwidths]
  exact if_neg htext

theorem decode_cons (slot position : Nat) (tag : UInt8) (content : List UInt8) :
    decode slot ⟨tag :: content, position, false⟩ = decodeTagged slot tag.toNat ⟨content, position + 1, false⟩ := by
  rw [decode_eq]
  exact (reads_u1 tag).bind_eq content position

/-! ### Entries that are cut short -/

theorem complete_of_exhausted (slot : Nat) (entry : PoolEntry) {c : Cursor} (h : c.isExhausted = true) :
    ∃ last, complete slot entry c = .error (ending last) := by
  obtain ⟨rest, position, marked⟩ := c
  cases h
  exact ⟨_, rfl⟩

theorem spelling_of_short (h : content.length < 2 + Cursor.bigEndian (content.take 2)) (position : Nat) :
    ∃ c', spelling ⟨content, position, false⟩ = .ok ([], c') ∧ c'.isExhausted = true := by
  rcases Nat.lt_or_ge content.length 2 with hlt | hle
  · exact ⟨_, (bind_eq_of_ok (number_of_short (.inr hlt))).trans (take_of_short (.inl rfl)), rfl⟩
  · obtain ⟨first, rest, rfl, hfirst⟩ := exists_split hle
    rw [List.take_left' hfirst, List.length_append, hfirst] at h
    have hshort := Nat.lt_of_add_lt_add_left h
    exact ⟨_, ((reads_number hfirst).bind_eq rest position).trans (take_of_short (.inr hshort)), rfl⟩

theorem decodeText_of_short (slot position : Nat) (h : content.length < 2 + Cursor.bigEndian (content.take 2)) :
    ∃ last, decodeText slot ⟨content, position, false⟩ = .error (ending last) := by
  obtain ⟨c', hspelling, hmarked⟩ := spelling_of_short h position
  obtain ⟨last, hlast⟩ := complete_of_exhausted slot (utf8 []) hmarked
  refine ⟨last, (bind_eq_of_ok hspelling).trans ?_⟩
  -- Nothing was read of the spelling, and the empty text is well spelled.
  have hempty : ModifiedUtf8.decode [] = some [] := by simp [ModifiedUtf8.decode, ModifiedUtf8.decodeOnto]
  rw [ofSpelling, hempty]
  exact hlast

theorem decode_of_cutShort (slot position : Nat) (h : CutShort bytes) :
    ∃ last, decode slot ⟨bytes, position, false⟩ = .error (ending last) := by
  cases bytes with
  | nil =>
    rw [decode_eq]
    exact ⟨slot, rfl⟩
  | cons tag content =>
    obtain ⟨size, hsize, hlt⟩ := h
    rw [decode_cons]
    rcases tag_cases tag.toNat with ⟨widths, hwidths⟩ | htext | ⟨hwidths, htext⟩
    · rw [contentSize?_row hwidths] at hsize
      cases hsize
      obtain ⟨ns, c', hns, hmarked⟩ := numbers_of_short (c := ⟨content, position + 1, false⟩) (.inr hlt)
      obtain ⟨last, hlast⟩ := complete_of_exhausted slot (ofNumbers tag.toNat ns) hmarked
      rw [decodeTagged_row hwidths]
      exact ⟨last, (bind_eq_of_ok hns).trans hlast⟩
    · rw [htext] at hsize ⊢
      cases hsize
      exact decodeText_of_short slot _ hlt
    · rw [contentSize?_unknown hwidths htext] at hsize
      cases hsize

/-! ### Entries that are whole -/

theorem takesTwoSlots_ofNumbers (h : ¬ (tag = 5 ∨ tag = 6)) (ns : List Nat) :
    (ofNumbers tag ns).takesTwoSlots = false := by
  unfold ofNumbers
  split <;> first | rfl | simp at h

theorem slotsOf_ofNumbers {tag : UInt8} (h : widths? tag.toNat = some widths) {ns : List Nat}
    (hlength : ns.length = widths.length) (content : List UInt8) :
    slotsOf (tag :: content) = 1 + (ofNumbers tag.toNat ns).takesTwoSlots.toNat := by
  rw [slotsOf]
  by_cases htwo : tag.toNat = 5 ∨ tag.toNat = 6
  · rw [if_pos htwo]
    rcases htwo with htag | htag <;>
    · rw [htag] at h ⊢
      cases h
      obtain ⟨n, rfl⟩ := List.length_eq_one_iff.1 hlength
      rfl
  · rw [if_neg htwo, takesTwoSlots_ofNumbers htwo, Bool.toNat_false]

theorem decode_of_whole (slot : Nat) (h : Whole bytes) :
    ∃ entry, (decode slot).Reads bytes entry ∧ slotsOf bytes = 1 + entry.takesTwoSlots.toNat := by
  cases bytes with
  | nil => cases h
  | cons tag content =>
    obtain ⟨hsize, hspelling⟩ := h
    suffices hcontent : ∃ entry, (decodeTagged slot tag.toNat).Reads content entry ∧
        slotsOf (tag :: content) = 1 + entry.takesTwoSlots.toNat by
      obtain ⟨entry, hreads, hslots⟩ := hcontent
      rw [decode_eq]
      exact ⟨entry, (reads_u1 tag).bind hreads, hslots⟩
    rcases tag_cases tag.toNat with ⟨widths, hwidths⟩ | htext | ⟨hwidths, htext⟩
    · rw [contentSize?_row hwidths] at hsize
      obtain ⟨ns, hreads, hlength⟩ := reads_numbers (Option.some.inj hsize).symm
      rw [decodeTagged_row hwidths]
      exact ⟨ofNumbers tag.toNat ns, hreads.bind_last (reads_complete slot _), slotsOf_ofNumbers hwidths hlength content⟩
    · cases (UInt8.toNat_inj.1 htext : tag = 1)
      obtain ⟨units, hunits⟩ := Option.isSome_iff_exists.1 (hspelling rfl)
      exact ⟨utf8 units, reads_decodeText slot (Option.some.inj hsize) hunits, rfl⟩
    · rw [contentSize?_unknown hwidths htext] at hsize
      cases hsize

/-- The size of an entry does not depend on what follows it. -/
theorem contentSize?_of_append {body rest : List UInt8} (h : contentSize? tag (body ++ rest) = some body.length) :
    contentSize? tag body = some body.length := by
  rcases tag_cases tag with ⟨widths, hwidths⟩ | rfl | ⟨hwidths, htext⟩
  · rwa [contentSize?_row hwidths] at h ⊢
  · have hsize : 2 + Cursor.bigEndian ((body ++ rest).take 2) = body.length := Option.some.inj h
    rw [List.take_append_of_le_length (by omega)] at hsize
    exact congrArg some hsize
  · rw [contentSize?_unknown hwidths htext] at h
    cases h

/-! ### Entries that are bad -/

theorem decodeTagged_of_unknown (slot position : Nat) (h : contentSize? tag content = none) :
    ∃ failure, decodeTagged slot tag ⟨content, position, false⟩ = .error failure ∧ failure.kind = .resolution := by
  rcases tag_cases tag with ⟨widths, hwidths⟩ | rfl | ⟨hwidths, htext⟩
  · rw [contentSize?_row hwidths] at h
    cases h
  · cases h
  · rw [decodeTagged_unknown hwidths htext]
    exact ⟨_, rfl, rfl⟩

theorem decodeTagged_of_misspelt (slot : Nat) {body : List UInt8} (rest : List UInt8) (position : Nat)
    (hsize : contentSize? 1 body = some body.length) (hnone : ModifiedUtf8.decode (body.drop 2) = none) :
    ∃ failure, decodeTagged slot 1 ⟨body ++ rest, position, false⟩ = .error failure ∧ failure.kind = .resolution := by
  have htext := (reads_spelling (Option.some.inj hsize)).bind_eq (f := ofSpelling slot) rest position
  rw [ofSpelling, hnone] at htext
  exact ⟨_, htext, rfl⟩

/-- Bytes are cut short, begin with an entry, or are refused as bad input. -/
theorem decode_cases (slot position : Nat) (bytes : List UInt8) :
    CutShort bytes ∨ (∃ entry rest, bytes = entry ++ rest ∧ Whole entry) ∨
      ∃ failure, decode slot ⟨bytes, position, false⟩ = .error failure ∧ failure.kind = .resolution := by
  cases bytes with
  | nil => exact .inl trivial
  | cons tag content =>
    rw [decode_cons]
    cases hsize : contentSize? tag.toNat content with
    | none => exact .inr (.inr (decodeTagged_of_unknown slot _ hsize))
    | some size =>
      rcases Nat.lt_or_ge content.length size with hlt | hle
      · exact .inl ⟨size, hsize, hlt⟩
      · obtain ⟨body, rest, rfl, rfl⟩ := exists_split hle
        have hbody := contentSize?_of_append hsize
        by_cases htext : tag = 1 → (ModifiedUtf8.decode (body.drop 2)).isSome
        · exact .inr (.inl ⟨tag :: body, rest, rfl, hbody, htext⟩)
        · obtain ⟨rfl, hnone⟩ := Classical.not_imp.1 htext
          exact .inr (.inr (decodeTagged_of_misspelt slot rest _ hbody (Option.not_isSome_iff_eq_none.1 hnone)))

end PoolEntry

/-! ### Slots -/

namespace Pool

/-- The bytes end within the entries that belong into the slots from `slot` on. -/
inductive EndsWithin (count : Nat) : (slot : Nat) → List UInt8 → Prop
  | cut {slot : Nat} {part : List UInt8} (hslot : slot < count) (hpart : PoolEntry.CutShort part) :
    EndsWithin count slot part
  | next {slot : Nat} {entry rest : List UInt8} (hentry : PoolEntry.Whole entry)
    (hrest : EndsWithin count (slot + PoolEntry.slotsOf entry) rest) : EndsWithin count slot (entry ++ rest)

theorem EndsWithin.slot_lt {count slot : Nat} {bytes : List UInt8} (h : EndsWithin count slot bytes) : slot < count := by
  induction h with
  | cut hslot => exact hslot
  | next _ _ ih => omega

theorem next_slot {slot : Nat} {bytes : List UInt8} {entry : PoolEntry}
    (h : PoolEntry.slotsOf bytes = 1 + entry.takesTwoSlots.toNat) :
    slot + false.toNat + PoolEntry.slotsOf bytes = slot + 1 + entry.takesTwoSlots.toNat := by
  rw [h, Bool.toNat_false, Nat.add_zero, Nat.add_assoc]

theorem decodeSlots_of_endsWithin {count slot : Nat} {skip : Bool} {entries : Array PoolEntry} {bytes : List UInt8}
    {position : Nat} (h : EndsWithin (slot + count) (slot + skip.toNat) bytes) :
    ∃ last, decodeSlots count slot skip entries ⟨bytes, position, false⟩ =
      .error (PoolEntry.ending last) := by
  induction count generalizing slot skip entries bytes position with
  | zero =>
    have := h.slot_lt
    omega
  | succ count ih =>
    cases skip with
    | true =>
      refine ih ?_
      rwa [Nat.add_right_comm]
    | false =>
      cases h with
      | cut _ hpart =>
        obtain ⟨last, hcut⟩ := PoolEntry.decode_of_cutShort slot position hpart
        exact ⟨last, bind_eq_of_error hcut⟩
      | next hentry hrest =>
        obtain ⟨entry, hreads, hslots⟩ := PoolEntry.decode_of_whole slot hentry
        unfold decodeSlots
        rw [hreads.bind_eq]
        refine ih ?_
        rwa [next_slot hslots, Nat.add_comm count 1, ← Nat.add_assoc] at hrest

theorem refuses_decodeSlots {count slot : Nat} {skip : Bool} {entries : Array PoolEntry} {bytes : List UInt8}
    {position : Nat} (h : ¬ EndsWithin (slot + count) (slot + skip.toNat) bytes) :
    Refuses (decodeSlots count slot skip entries ⟨bytes, position, false⟩) := by
  induction count generalizing slot skip entries bytes position with
  | zero => exact refuses_ok _
  | succ count ih =>
    cases skip with
    | true =>
      refine ih fun hends => h ?_
      rwa [Nat.add_right_comm] at hends
    | false =>
      rcases PoolEntry.decode_cases slot position bytes with
        hpart | ⟨entry, rest, rfl, hentry⟩ | ⟨failure, hfailure, hkind⟩
      · exact absurd (.cut (by rw [Bool.toNat_false]; omega) hpart) h
      · obtain ⟨read, hreads, hslots⟩ := PoolEntry.decode_of_whole slot hentry
        unfold decodeSlots
        rw [hreads.bind_eq]
        refine ih fun hends => h (.next hentry ?_)
        rwa [next_slot hslots, Nat.add_comm count 1, ← Nat.add_assoc]
      · unfold decodeSlots
        rw [bind_eq_of_error hfailure]
        exact refuses_error hkind

theorem endsWithin_first {count : Nat} {bytes : List UInt8} :
    EndsWithin (1 + (count - 1)) (1 + false.toNat) bytes ↔ EndsWithin count 1 bytes := by
  cases count with
  | zero =>
    constructor <;> intro h <;> cases Nat.not_lt_of_le (by decide) h.slot_lt
  | succ count => rw [Nat.add_sub_cancel, Nat.add_comm 1, Bool.toNat_false, Nat.add_zero]

/-- The bytes end within the entries of the pool that they begin with. -/
def EndsInside (bytes : List UInt8) : Prop :=
  ∃ count rest, bytes = count ++ rest ∧ count.length = 2 ∧ EndsWithin (Cursor.bigEndian count) 1 rest

theorem decode_of_endsInside {bytes : List UInt8} (h : EndsInside bytes) (position : Nat) :
    ∃ last, decode ⟨bytes, position, false⟩ = .error (PoolEntry.ending last) := by
  obtain ⟨count, rest, rfl, hcount, hends⟩ := h
  obtain ⟨last, hlast⟩ := decodeSlots_of_endsWithin (endsWithin_first.2 hends)
  exact ⟨last, ((reads_number hcount).bind_eq rest position).trans (bind_eq_of_error hlast)⟩

/-- A pool whose number of slots is cut short has no slots, and is not refused. -/
theorem refuses_decode {bytes : List UInt8} (h : ¬ EndsInside bytes) (position : Nat) :
    Refuses (decode ⟨bytes, position, false⟩) := by
  rcases Nat.lt_or_ge bytes.length 2 with hlt | hle
  · have hpool : decode ⟨bytes, position, false⟩ = .ok (⟨#[.unusable]⟩, ⟨bytes, position, true⟩) :=
      bind_eq_of_ok (number_of_short (.inr hlt))
    rw [hpool]
    exact refuses_ok _
  · obtain ⟨count, rest, rfl, hcount⟩ := exists_split hle
    unfold decode
    rw [show Reading.u2 = Reading.number 2 from rfl, (reads_number hcount).bind_eq]
    exact Refuses.bind (refuses_decodeSlots fun hends => h ⟨count, rest, rfl, hcount, endsWithin_first.1 hends⟩)
      fun _ => refuses_ok _

end Pool

end JvmAot
