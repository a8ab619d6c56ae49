import JvmAot.Proofs.ClassFile.Format
import JvmAot.Proofs.ClassFile.PoolEntries
import JvmAot.Proofs.Text.Units

/-! # A pool is read as its table

`PoolImage.reads_decode`: the bytes of a pool are read as the table of its entries. Looking a slot up there gives what the
slot spells: the texts, and the constants (`PoolImage.constant_of_spells`, `PoolImage.spells_of_constant`). -/

namespace JvmAot

open Decoder

/-! ### Numbers -/

theorem length_numberBytes (count n : Nat) : (numberBytes count n).length = count := by
  induction count generalizing n with
  | zero => rfl
  | succ count ih => rw [numberBytes, List.length_append, ih, List.length_singleton]

theorem Cursor.bigEndian_concat (bytes : List UInt8) (b : UInt8) :
    bigEndian (bytes ++ [b]) = bigEndian bytes * 256 + b.toNat := by
  rw [bigEndian, List.foldl_append]
  rfl

theorem bigEndian_numberBytes {count n : Nat} (h : n < capacity count) : Cursor.bigEndian (numberBytes count n) = n := by
  induction count generalizing n with
  | zero =>
    cases Nat.lt_one_iff.1 h
    rfl
  | succ count ih =>
    have hrest : n / 256 < capacity count := Nat.div_lt_of_lt_mul h
    rw [numberBytes, Cursor.bigEndian_concat, ih hrest, UInt8.toNat_ofNat']
    exact Nat.div_add_mod' n 256

theorem Cursor.signed_toUInt32 (value : Int32) : signed 32 value.toUInt32.toNat = value.toInt :=
  (BitVec.toInt_eq_toNat_bmod _).symm

theorem Cursor.signed_toUInt64 (value : Int64) : signed 64 value.toUInt64.toNat = value.toInt :=
  (BitVec.toInt_eq_toNat_bmod _).symm

theorem reads_numberBytes {count n : Nat} (h : n < capacity count) :
    Reads (liftM (Reading.number count)) (numberBytes count n) n := by
  have hreads := reads_number (length_numberBytes count n)
  rwa [bigEndian_numberBytes h] at hreads

theorem word_fits (n : UInt16) : n.toNat < capacity 2 :=
  n.toNat_lt

theorem reads_word (n : UInt16) : Reads (liftM Reading.u2) (wordBytes n) n.toNat :=
  reads_numberBytes (word_fits n)

theorem reads_row {row : List (Nat × Nat)} (h : ∀ field ∈ row, field.2 < capacity field.1) :
    (numbers (row.map Prod.fst)).Reads (row.flatMap fun field => numberBytes field.1 field.2) (row.map Prod.snd) := by
  induction row with
  | nil => exact reads_pure []
  | cons field row ih =>
    obtain ⟨hfield, hrow⟩ := List.forall_mem_cons.1 h
    exact (reads_numberBytes hfield).bind ((ih hrow).bind_last (reads_pure _))

/-! ### Entries -/

namespace PoolItem
variable {item : PoolItem}

theorem row_fits (item : PoolItem) : ∀ field ∈ item.row, field.2 < capacity field.1 := by
  cases item with
  | utf8 => exact List.forall_mem_nil _
  | integer value => exact List.forall_mem_singleton.2 value.toUInt32.toNat_lt
  | float bits => exact List.forall_mem_singleton.2 bits.toNat_lt
  | long value => exact List.forall_mem_singleton.2 value.toUInt64.toNat_lt
  | double bits => exact List.forall_mem_singleton.2 bits.toNat_lt
  | classRef n | string n | methodType n | moduleRef n | packageRef n => exact List.forall_mem_singleton.2 (word_fits n)
  | field m n | method m n | interfaceMethod m n | nameAndType m n | dynamic m n | invokeDynamic m n =>
    exact List.forall_mem_cons.2 ⟨word_fits m, List.forall_mem_singleton.2 (word_fits n)⟩
  | methodHandle kind n => exact List.forall_mem_cons.2 ⟨kind.toNat_lt, List.forall_mem_singleton.2 (word_fits n)⟩

theorem reads_text (slot : Nat) {units : List UInt16} (fits : (ModifiedUtf8.encode units).length < capacity 2) :
    (PoolEntry.decodeText slot).Reads (utf8 units fits).content (.utf8 units) := by
  have hlength := length_numberBytes 2 (ModifiedUtf8.encode units).length
  refine PoolEntry.reads_decodeText slot ?_ ?_
  · rw [content, List.take_left' hlength, bigEndian_numberBytes fits, List.length_append, hlength]
  · rw [content, List.drop_left' hlength, ModifiedUtf8.decode_encode]

/-- Apart from texts, an entry is read off its row of numbers. -/
theorem reads_content_of_row (slot : Nat) {widths : List Nat} (hwidths : PoolEntry.widths? item.tag = some widths)
    (hrow : item.row.map Prod.fst = widths) (hentry : PoolEntry.ofNumbers item.tag (item.row.map Prod.snd) = item.entry) :
    (PoolEntry.decodeTagged slot item.tag).Reads (item.row.flatMap fun field => numberBytes field.1 field.2) item.entry := by
  rw [PoolEntry.decodeTagged, hwidths, ← hrow, ← hentry]
  exact (reads_row item.row_fits).bind_last (PoolEntry.reads_complete slot _)

theorem reads_content (slot : Nat) (item : PoolItem) :
    (PoolEntry.decodeTagged slot item.tag).Reads item.content item.entry := by
  cases item with
  | utf8 units fits => exact reads_text slot fits
  | integer value => exact reads_content_of_row slot rfl rfl (congrArg PoolEntry.integer UInt32.ofNat_toNat)
  | float bits => exact reads_content_of_row slot rfl rfl (congrArg PoolEntry.float UInt32.ofNat_toNat)
  | long value => exact reads_content_of_row slot rfl rfl (congrArg PoolEntry.long UInt64.ofNat_toNat)
  | double bits => exact reads_content_of_row slot rfl rfl (congrArg PoolEntry.double UInt64.ofNat_toNat)
  | _ => exact reads_content_of_row slot rfl rfl rfl

theorem reads_decode (slot : Nat) (item : PoolItem) : (PoolEntry.decode slot).Reads item.bytes item.entry := by
  have htag : (UInt8.ofNat item.tag).toNat = item.tag := by cases item <;> rfl
  rw [PoolEntry.decode_eq]
  refine (reads_u1 (UInt8.ofNat item.tag)).bind ?_
  rw [htag]
  exact reads_content slot item

theorem slots_eq (item : PoolItem) :
    item.slots = if item.entry.takesTwoSlots then [some item, none] else [some item] := by
  cases item <;> rfl

end PoolItem

/-! ### The table -/

theorem Pool.reads_decodeSlots_item {item : PoolItem} {count slot : Nat} {entries result : Array PoolEntry}
    {bytes : List UInt8}
    (h : (decodeSlots count (slot + item.slots.length) false (entries ++ (item.slots.map PoolEntry.ofSlot).toArray)).Reads
      bytes result) :
    (decodeSlots (item.slots.length + count) slot false entries).Reads (item.bytes ++ bytes) result := by
  rw [PoolItem.slots_eq] at h ⊢
  -- After an entry of two slots the decoder goes through the second one without reading.
  cases htwo : item.entry.takesTwoSlots with
  | false =>
    rw [htwo, if_neg (by decide)] at h
    rw [if_neg (by decide), List.length_singleton, Nat.add_comm, decodeSlots]
    refine (item.reads_decode slot).bind ?_
    rw [htwo]
    simpa [PoolEntry.ofSlot] using h
  | true =>
    have hpush : entries ++ ([some item, none].map PoolEntry.ofSlot).toArray = (entries.push item.entry).push .unusable := by
      apply Array.ext'
      simp [PoolEntry.ofSlot]
    rw [htwo, if_pos rfl, hpush] at h
    rw [if_pos rfl, List.length_cons, List.length_singleton, Nat.add_comm, decodeSlots]
    refine (item.reads_decode slot).bind ?_
    rw [htwo]
    exact h

theorem Pool.reads_decodeSlots (items : List PoolItem) (slot : Nat) (entries : Array PoolEntry) :
    (decodeSlots (items.flatMap PoolItem.slots).length slot false entries).Reads (items.flatMap PoolItem.bytes)
      (entries ++ ((items.flatMap PoolItem.slots).map PoolEntry.ofSlot).toArray) := by
  induction items generalizing slot entries with
  | nil => simpa [decodeSlots] using reads_pure entries
  | cons item items ih =>
    rw [List.flatMap_cons, List.flatMap_cons, List.length_append, List.map_append, ← List.append_toArray, ← Array.append_assoc]
    exact reads_decodeSlots_item (ih _ _)

namespace PoolImage
variable {pool : PoolImage} {index : Nat}

theorem reads_decode (pool : PoolImage) : Pool.decode.Reads pool.bytes pool.table := by
  refine (reads_numberBytes pool.fits).bind ?_
  rw [Nat.add_sub_cancel_left]
  have htable : pool.table = ⟨#[.unusable] ++ ((pool.items.flatMap PoolItem.slots).map PoolEntry.ofSlot).toArray⟩ := by
    simp [table, slots, PoolEntry.ofSlot]
  rw [htable]
  exact (Pool.reads_decodeSlots pool.items 1 #[.unusable]).bind_last (reads_pure _)

/-! ### Looking slots up -/

theorem entry?_of_item? {item : PoolItem} (h : pool.item? index = some item) : pool.table.entry? index = some item.entry := by
  have hslot : pool.slots[index]? = some (some item) := Option.join_eq_some_iff.1 h
  have hindex : index ≠ 0 := by
    rintro rfl
    cases hslot
  rw [Pool.entry?, if_neg hindex, table, List.getElem?_toArray, List.getElem?_map, hslot]
  rfl

theorem text_of_text {text : String} (h : pool.Text index text) : pool.table.text index = .ok text := by
  obtain ⟨fits, hitem⟩ := h
  rw [Pool.text, Pool.utf8, entry?_of_item? hitem]
  exact congrArg Except.ok (Utf16.decode_encode text)

theorem className_of_className {name : String} (h : pool.ClassName index name) : pool.table.className index = .ok name := by
  obtain ⟨text, hitem, htext⟩ := h
  rw [Pool.className, entry?_of_item? hitem]
  exact text_of_text htext

theorem nameAndType_of_nameAndType {name descriptor : String} (h : pool.NameAndType index name descriptor) :
    pool.table.nameAndType index = .ok (name, descriptor) := by
  obtain ⟨nameIndex, descriptorIndex, hitem, hname, hdescriptor⟩ := h
  rw [Pool.nameAndType, entry?_of_item? hitem]
  show (pool.table.text nameIndex.toNat >>= _) = _
  rw [text_of_text hname]
  show (pool.table.text descriptorIndex.toNat >>= _) = _
  rw [text_of_text hdescriptor]
  rfl

theorem value_of_member {item : PoolItem} {ownerIndex pairIndex : UInt16} {owner name descriptor : String}
    (hitem : item.member? = some (ownerIndex, pairIndex)) (howner : pool.ClassName ownerIndex.toNat owner)
    (hpair : pool.NameAndType pairIndex.toNat name descriptor) :
    pool.table.value index item.entry = .ok (.member item.tag owner name descriptor) := by
  have hmember (tag : Nat) : pool.table.value index (.member tag ownerIndex.toNat pairIndex.toNat) =
      .ok (.member tag owner name descriptor) := by
    rw [Pool.value, className_of_className howner]
    show (pool.table.nameAndType pairIndex.toNat >>= _) = _
    rw [nameAndType_of_nameAndType hpair]
    rfl
  cases item with
  | field | method | interfaceMethod =>
    cases hitem
    exact hmember _
  | _ => cases hitem

theorem constant_of_spells {value : ConstantValue} (h : pool.Spells index value) :
    pool.table.constant index = .ok { slot := index, value } := by
  suffices hvalue : ∃ item, pool.item? index = some item ∧ pool.table.value index item.entry = .ok value by
    obtain ⟨item, hitem, hvalue⟩ := hvalue
    rw [Pool.constant, entry?_of_item? hitem]
    dsimp only
    rw [hvalue]
    rfl
  cases h with
  | integer h =>
    exact ⟨_, h, congrArg (fun n => Except.ok (ConstantValue.integer n)) (Cursor.signed_toUInt32 _)⟩
  | float h | double h => exact ⟨_, h, rfl⟩
  | long h =>
    exact ⟨_, h, congrArg (fun n => Except.ok (ConstantValue.long n)) (Cursor.signed_toUInt64 _)⟩
  | string h htext =>
    refine ⟨_, h, ?_⟩
    rw [PoolItem.entry, Pool.value, Pool.utf8, entry?_of_item? htext]
    rfl
  | classRef h =>
    obtain ⟨text, hitem, htext⟩ := h
    refine ⟨_, hitem, ?_⟩
    rw [PoolItem.entry, Pool.value, text_of_text htext]
    rfl
  | member h hitem howner hpair => exact ⟨_, h, value_of_member hitem howner hpair⟩
  | @uninterpreted item h htag =>
    refine ⟨item, h, ?_⟩
    cases item <;> first | rfl | simp [PoolItem.tag] at htag

/-! ### What a look-up found -/

theorem exists_of_bind_ok {α β : Type} {r : Except Failure α} {f : α → Except Failure β} {b : β} (h : (r >>= f) = .ok b) :
    ∃ a, r = .ok a ∧ f a = .ok b := by
  cases r with
  | error => cases h
  | ok a => exact ⟨a, rfl, h⟩

theorem exists_of_map_ok {α β : Type} {r : Except Failure α} {f : α → β} {b : β} (h : r.map f = .ok b) :
    ∃ a, r = .ok a ∧ f a = b := by
  cases r with
  | error => cases h
  | ok a => exact ⟨a, rfl, Except.ok.inj h⟩

theorem item?_of_entry? {entry : PoolEntry} (h : pool.table.entry? index = some entry) (hentry : entry ≠ .unusable) :
    ∃ item, pool.item? index = some item ∧ item.entry = entry := by
  unfold Pool.entry? at h
  split at h
  · cases h
  · rw [table, List.getElem?_toArray, List.getElem?_map] at h
    obtain ⟨slot, hslot, rfl⟩ := Option.map_eq_some_iff.1 h
    cases slot with
    | none => exact absurd rfl hentry
    | some item => exact ⟨item, Option.join_eq_some_iff.2 hslot, rfl⟩

theorem utf8_of_ok {units : List UInt16} (h : pool.table.utf8 index = .ok units) :
    ∃ fits, pool.item? index = some (.utf8 units fits) := by
  unfold Pool.utf8 at h
  split at h
  · rename_i hentry
    cases h
    obtain ⟨item, hitem, heq⟩ := item?_of_entry? hentry PoolEntry.noConfusion
    cases item with
    | utf8 units' fits =>
      cases heq
      exact ⟨fits, hitem⟩
    | _ => cases heq
  · cases h

theorem text_of_ok (hunicode : pool.IsUnicode) {text : String} (h : pool.table.text index = .ok text) :
    pool.Text index text := by
  obtain ⟨units, hunits, rfl⟩ := exists_of_map_ok h
  obtain ⟨fits, hitem⟩ := utf8_of_ok hunits
  obtain ⟨text, rfl⟩ := hunicode index units fits hitem
  rw [Utf16.decode_encode]
  exact ⟨fits, hitem⟩

theorem className_of_ok (hunicode : pool.IsUnicode) {name : String} (h : pool.table.className index = .ok name) :
    pool.ClassName index name := by
  unfold Pool.className at h
  split at h
  · rename_i hentry
    obtain ⟨item, hitem, heq⟩ := item?_of_entry? hentry PoolEntry.noConfusion
    cases item with
    | classRef text =>
      cases heq
      exact ⟨text, hitem, text_of_ok hunicode h⟩
    | _ => cases heq
  · cases h

theorem nameAndType_of_ok (hunicode : pool.IsUnicode) {name descriptor : String}
    (h : pool.table.nameAndType index = .ok (name, descriptor)) : pool.NameAndType index name descriptor := by
  unfold Pool.nameAndType at h
  split at h
  · rename_i hentry
    obtain ⟨item, hitem, heq⟩ := item?_of_entry? hentry PoolEntry.noConfusion
    cases item with
    | nameAndType nameIndex descriptorIndex =>
      cases heq
      obtain ⟨_, hname, h⟩ := exists_of_bind_ok h
      obtain ⟨_, hdescriptor, h⟩ := exists_of_bind_ok h
      cases h
      exact ⟨_, _, hitem, text_of_ok hunicode hname, text_of_ok hunicode hdescriptor⟩
    | _ => cases heq
  · cases h

theorem spells_of_member (hunicode : pool.IsUnicode) {item : PoolItem} {ownerIndex pairIndex : UInt16} {value : ConstantValue}
    (hitem : pool.item? index = some item) (hmember : item.member? = some (ownerIndex, pairIndex))
    (hvalue : pool.table.value index (.member item.tag ownerIndex.toNat pairIndex.toNat) = .ok value) :
    pool.Spells index value := by
  obtain ⟨owner, howner, hvalue⟩ := exists_of_bind_ok hvalue
  obtain ⟨⟨name, descriptor⟩, hpair, hvalue⟩ := exists_of_bind_ok hvalue
  cases hvalue
  exact .member hitem hmember (className_of_ok hunicode howner) (nameAndType_of_ok hunicode hpair)

/-- A constant that can be looked up is the one that its slot spells. -/
theorem spells_of_constant (hunicode : pool.IsUnicode) {c : Constant} (h : pool.table.constant index = .ok c) :
    pool.Spells index c.value := by
  unfold Pool.constant at h
  split at h
  · cases h
  · rename_i entry hentry
    obtain ⟨value, hvalue, rfl⟩ := exists_of_map_ok h
    dsimp only
    have husable : entry ≠ .unusable := by
      rintro rfl
      cases hvalue
    obtain ⟨item, hitem, rfl⟩ := item?_of_entry? hentry husable
    cases item with
    | integer =>
      cases hvalue
      rw [Cursor.signed_toUInt32]
      exact .integer hitem
    | long =>
      cases hvalue
      rw [Cursor.signed_toUInt64]
      exact .long hitem
    | float =>
      cases hvalue
      exact .float hitem
    | double =>
      cases hvalue
      exact .double hitem
    | string =>
      obtain ⟨units, hunits, rfl⟩ := exists_of_map_ok hvalue
      obtain ⟨fits, htext⟩ := utf8_of_ok hunits
      exact .string hitem htext
    | classRef text =>
      obtain ⟨name, hname, rfl⟩ := exists_of_map_ok hvalue
      exact .classRef ⟨text, hitem, text_of_ok hunicode hname⟩
    | field | method | interfaceMethod => exact spells_of_member hunicode hitem rfl hvalue
    | methodHandle | methodType | dynamic | invokeDynamic =>
      cases hvalue
      exact .uninterpreted hitem (by simp [PoolItem.tag])
    | utf8 | nameAndType | moduleRef | packageRef => cases hvalue

end PoolImage

end JvmAot
