import JvmAot.Proofs.Asm.Data
import JvmAot.Proofs.Heap.Graph
import Mathlib.Data.List.Pairwise

/-! # Where the data of objects stands

The lines that items of data are written as are read as the bytes of the items (`DataItem.assemble?_lines`). The data of
an instance fills its layout byte by byte: the vtable in the first word, each field at its offset, and zeros in between
(`ObjectLayout.Filled`). Every object takes a whole number of words (`Heap.wholeWords_block`). -/

namespace JvmAot

/-! ### The bytes of items -/

/-- The bytes of the word that refers to a value. -/
def LabelTable.wordData (t : LabelTable) (v : Value) : List AssembledByte :=
  itemData 4 (t.get v).1

@[simp] theorem LabelTable.length_wordData (t : LabelTable) (v : Value) : (t.wordData v).length = 4 :=
  length_itemData 4 _

namespace DataItem

/-- Numbers have the size of some type, and there are no negative numbers of zeros. -/
def IsRegular : DataItem → Prop
  | numbers size _ => size = 1 ∨ size = 2 ∨ size = 4 ∨ size = 8
  | zeros count => 0 ≤ count
  | references _ | align _ => True

/-- The bytes of an item that stands at a position, with the labels that objects have. -/
def data (labels : LabelTable) (position : Nat) : DataItem → List AssembledByte
  | references values => values.flatMap labels.wordData
  | numbers size values => values.flatMap (numberData size)
  | zeros count => zeroData count.toNat
  | align bytes => zeroData (paddingTo bytes position)

/-- The bytes of some items, the first of which stands at a position. -/
def dataAll (labels : LabelTable) (position : Nat) : List DataItem → List AssembledByte
  | [] => []
  | item :: rest =>
    item.data labels position ++ dataAll labels (position + (item.data labels position).length) rest

theorem dataAll_append (labels : LabelTable) (position : Nat) (items more : List DataItem) :
    dataAll labels position (items ++ more) = dataAll labels position items ++
      dataAll labels (position + (dataAll labels position items).length) more := by
  induction items generalizing position with
  | nil => rfl
  | cons item rest ih =>
    rw [List.cons_append, dataAll, dataAll, ih, List.append_assoc, List.length_append, Nat.add_assoc]

/-- Numbers that are written in pieces have the same bytes. -/
theorem flatMap_itemData {size unit : Nat} (h : ∀ n, (number size n).flatMap (numberData unit) = numberData size n)
    (values : List Int) :
    ((values.flatMap (number size)).map toString).flatMap (itemData unit) = values.flatMap (numberData size) := by
  simp only [List.flatMap_map, itemData_toString, List.flatMap_assoc, h]

theorem bmod_modEq (n : Int) : n.bmod 0x100000000 ≡ n [ZMOD 256 ^ 4] :=
  Int.bmod_emod

theorem data?_numbers {size position : Nat} (hsize : size = 1 ∨ size = 2 ∨ size = 4 ∨ size = 8) (values : List Int) :
    directiveData? position (directive size) ((values.flatMap (number size)).map toString) =
      some (values.flatMap (numberData size)) := by
  rcases hsize with rfl | rfl | rfl | rfl
  · refine congrArg some (flatMap_itemData (fun n => ?_) values)
    rw [number, List.flatMap_singleton]
    exact numberData_congr (Int.mod_modEq n 0x100)
  · refine congrArg some (flatMap_itemData (fun n => ?_) values)
    rw [number, List.flatMap_singleton]
    exact numberData_congr (Int.mod_modEq n 0x10000)
  · refine congrArg some (flatMap_itemData (fun n => ?_) values)
    rw [number, List.flatMap_singleton]
    · exact numberData_congr (bmod_modEq n)
    all_goals decide
  · -- two words, low word first
    refine congrArg some (flatMap_itemData (fun n => ?_) values)
    rw [number, List.flatMap_cons, List.flatMap_singleton, numberData_congr (bmod_modEq n),
      numberData_congr (bmod_modEq (n / 0x100000000)), numberData, numberData, numberData, ← List.map_append]
    exact congrArg _ (littleEndian_add 4 4 n).symm

variable {t t' : LabelTable} {item : DataItem} {items : List DataItem}

theorem data?_line (hitem : item.IsRegular) (h : (item.line t).2.Extends t') (position : Nat) :
    (item.line t).1.data? position = some (item.data t' position) := by
  cases item with
  | references values =>
    simp only [line, Line.data?, directiveData?, data, LabelTable.getAll_eq_map (t := t) h, List.flatMap_map]
    rfl
  | numbers size values => exact data?_numbers hitem values
  | zeros count =>
    obtain ⟨n, rfl⟩ := Int.eq_ofNat_of_zero_le hitem
    simp only [line, Line.data?, directiveData?, count?_toString, Option.map_some]
    rfl
  | align bytes =>
    have hcount : count? (toString bytes) = some bytes := count?_toString bytes
    simp only [line, Line.data?, directiveData?, hcount, Option.map_some]
    rfl

/-- The text of items is read as their bytes. -/
theorem assemble?_lines (hitems : ∀ item ∈ items, item.IsRegular) (h : (lines t items).2.Extends t') (position : Nat) :
    assemble? position (lines t items).1 = some (dataAll t' position items) := by
  induction items generalizing t position with
  | nil => rfl
  | cons item rest ih =>
    obtain ⟨hitem, hrest⟩ := List.forall_mem_cons.1 hitems
    have hfirst : (item.line t).2.Extends t' := (extends_lines rest _).trans h
    simp only [lines, assemble?, data?_line hitem hfirst, ih hrest (t := (item.line t).2) h, Option.map_some, dataAll]

end DataItem

/-! ### Layouts -/

/-- Where a field ends. -/
def FieldSlot.stop (f : FieldSlot) : Int :=
  f.offset + f.type.bytes

/-- Whether a byte of an instance belongs to a field. -/
def FieldSlot.Covers (f : FieldSlot) (k : Nat) : Prop :=
  f.offset ≤ k ∧ k < f.stop

theorem FieldSlot.offset_lt_stop (f : FieldSlot) : f.offset < f.stop := by
  have := f.type.bytes_cases
  rw [stop]
  omega

namespace ObjectLayout

/-- A layout of whole words, at least one, in which the fields do not overlap. Sizes are 64-bit numbers. -/
structure Sound (l : ObjectLayout) : Prop where
  four_le : 4 ≤ l.size
  aligned : 4 ∣ l.size
  small : l.size < 2 ^ 63
  within : ∀ f ∈ l.fields, 0 ≤ f.offset ∧ f.stop ≤ l.size
  apart : l.fields.Pairwise fun f g => f.stop ≤ g.offset ∨ g.stop ≤ f.offset

/-- The value of a field: what is set under its name if it is the first field of that name. -/
def valueOf (l : ObjectLayout) (values : List (String × Value)) (f : FieldSlot) : Value :=
  if l.fields.find? (·.name == f.name) = some f then (values.lookup f.name).getD .null else .null

/-- The bytes are those of a value in a field. -/
def Content (labels : LabelTable) (type : FieldType) (v : Value) (bytes : List AssembledByte) : Prop :=
  if type.isReference then ∃ text, labels.get v = (text, labels) ∧ bytes = itemData 4 text
  else ∃ n, v.number? = some n ∧ bytes = numberData type.bytes n

/-- The bytes are those of an instance: the address of its vtable, its fields and zeros around them. -/
structure Filled (l : ObjectLayout) (vtable : Value) (values : List (String × Value)) (labels : LabelTable)
    (bytes : List AssembledByte) : Prop where
  length : bytes.length = l.size
  vtable : ∃ text, labels.get vtable = (text, labels) ∧ addressData 4 text <+: bytes
  field : ∀ f ∈ l.fields, 4 ≤ f.offset →
    ∃ content, Content labels f.type (l.valueOf values f) content ∧ content <+: bytes.drop f.offset.toNat
  zero : ∀ k < bytes.length, 4 ≤ k → (∀ f ∈ l.fields, 4 ≤ f.offset → ¬ f.Covers k) → bytes[k]? = some (.number 0)

variable {l : ObjectLayout} {f : FieldSlot}

/-- The fields that values are set for are the first ones of their names. -/
theorem mem_visible_iff {seen : List String} {fields : List FieldSlot} :
    f ∈ visible seen fields ↔ f.name ∉ seen ∧ fields.find? (·.name == f.name) = some f := by
  induction fields generalizing seen with
  | nil => simp [visible]
  | cons g rest ih =>
    rw [visible, List.find?_cons]
    -- a field of the same name is the one found, and hides `f` unless it is `f` itself
    by_cases hname : g.name = f.name
    · rw [beq_iff_eq.2 hname]
      by_cases hseen : g.name ∈ seen
      · rw [if_pos (List.contains_iff_mem.2 hseen), ih]
        simp [hname ▸ hseen]
      · rw [if_neg (mt List.contains_iff_mem.1 hseen), List.mem_cons, ih]
        simp [hname ▸ hseen, hname, eq_comm]
    · have hne : f ≠ g := by
        rintro rfl
        exact hname rfl
      rw [beq_eq_false_iff_ne.2 hname]
      by_cases hseen : g.name ∈ seen
      · rw [if_pos (List.contains_iff_mem.2 hseen), ih]
      · rw [if_neg (mt List.contains_iff_mem.1 hseen), List.mem_cons, ih]
        simp [hne, Ne.symm hname]

theorem Sound.eq_of_offset (h : l.Sound) {g : FieldSlot} (hf : f ∈ l.fields) (hg : g ∈ l.fields)
    (hoffset : f.offset = g.offset) : f = g := by
  have hsymm : Std.Symm fun f g : FieldSlot => f.stop ≤ g.offset ∨ g.stop ≤ f.offset := ⟨fun _ _ => Or.symm⟩
  by_contra hne
  have hapart := h.apart.forall hf hg hne
  have hf' := f.offset_lt_stop
  have hg' := g.offset_lt_stop
  omega

/-- The value at the offset of a field is the value of the field, as no two fields have one offset. -/
theorem Sound.valueAt_eq_valueOf (h : l.Sound) (hf : f ∈ l.fields) (values : List (String × Value)) :
    l.valueAt values f.offset = l.valueOf values f := by
  rw [valueAt, valueOf]
  cases hfind : l.named.reverse.find? (·.offset = f.offset) with
  | none =>
    have hfirst : l.fields.find? (·.name == f.name) ≠ some f := by
      intro hfirst
      have hmem : f ∈ l.named := mem_visible_iff.2 ⟨List.not_mem_nil, hfirst⟩
      have hnone := List.find?_eq_none.1 hfind f (List.mem_reverse.2 hmem)
      simp at hnone
    rw [if_neg hfirst]
  | some g =>
    have hmem : g ∈ l.named := List.mem_reverse.1 (List.mem_of_find?_eq_some hfind)
    have hoffset : g.offset = f.offset := by simpa using List.find?_some hfind
    obtain rfl : g = f := h.eq_of_offset (mem_of_mem_visible hmem) hf hoffset
    rw [if_pos (mem_visible_iff.1 hmem).2]

theorem sorted_ordered (l : ObjectLayout) : l.ordered.Pairwise (·.offset ≤ ·.offset) := by
  have hsorted := @List.pairwise_mergeSort FieldSlot (fun f g => decide (f.offset ≤ g.offset))
    (fun f g k hfg hgk => by simp only [decide_eq_true_eq] at hfg hgk ⊢; omega)
    (fun f g => by simp only [Bool.or_eq_true, decide_eq_true_eq]; omega)
    (l.fields.filter (headerSize ≤ ·.offset))
  exact hsorted.imp of_decide_eq_true

/-- The fields behind the vtable follow each other. -/
theorem Sound.pairwise_ordered (h : l.Sound) : l.ordered.Pairwise fun f g => f.stop ≤ g.offset := by
  have hapart : l.ordered.Pairwise fun f g => f.stop ≤ g.offset ∨ g.stop ≤ f.offset :=
    ((List.mergeSort_perm _ _).pairwise_iff fun hfg => hfg.symm).2 (h.apart.filter _)
  refine (l.sorted_ordered.and hapart).imp ?_
  intro f g hfg
  -- no field is empty, so one that comes later in the order does not end before
  have hg := g.offset_lt_stop
  omega

end ObjectLayout

/-! ### The data of fields -/

/-- The bytes of a value in a field of some type. -/
def FieldType.content (type : FieldType) (labels : LabelTable) (v : Value) : List AssembledByte :=
  if type.isReference then labels.wordData v else numberData type.bytes (v.number?.getD 0)

theorem FieldType.length_content (type : FieldType) (labels : LabelTable) (v : Value) :
    (type.content labels v).length = type.bytes := by
  unfold content
  split
  · rename_i hreference
    rw [LabelTable.length_wordData, bytes, if_pos hreference]
  · exact length_numberData ..

namespace Heap

variable {h : Heap} {l : ObjectLayout} {className : String} {values : List (String × Value)} {position : Nat}
  {f : FieldSlot} {fields : List FieldSlot}

theorem wrap_of_small {n : Int} (h0 : 0 ≤ n) (hn : n < 2 ^ 63) : IntType.int.wrap n = n := by
  show n.bmod (2 ^ 64) = n
  exact Int.bmod_eq_of_le (by omega) (by omega)

theorem gap_spec {target : Int} (hle : position ≤ target) (htarget : target < 2 ^ 63) :
    (∀ item ∈ gap position target, item.IsRegular) ∧ ∀ labels start,
      DataItem.dataAll labels start (gap position target) = zeroData (target.toNat - position) := by
  unfold gap
  split
  · rw [wrap_of_small (by omega) (by omega)]
    refine ⟨?_, fun labels start => ?_⟩
    · rintro _ (_ | ⟨_, ⟨⟩⟩)
      show 0 ≤ target - position
      omega
    · rw [DataItem.dataAll, DataItem.dataAll, DataItem.data, List.append_nil]
      congr 1
      omega
  · refine ⟨by simp, fun labels start => ?_⟩
    rw [show target.toNat - position = 0 by omega]
    rfl

/-- The data of a field comes behind the gap in front of it. -/
theorem fieldData_cons {position : Int}
    (hfailure : (h.fieldData l className values position (f :: fields)).failure = none) :
    ∃ item : DataItem, (item.IsRegular ∧
        ∀ labels start, item.data labels start = f.type.content labels (l.valueAt values f.offset)) ∧
      (f.type.isReference = false → (l.valueAt values f.offset).number?.isSome) ∧
      (h.fieldData l className values (IntType.int.wrap f.stop) fields).failure = none ∧
      (h.fieldData l className values position (f :: fields)).items =
        gap position f.offset ++ item :: (h.fieldData l className values (IntType.int.wrap f.stop) fields).items := by
  simp only [fieldData] at hfailure ⊢
  split at hfailure
  · rename_i hreference
    rw [if_pos hreference]
    refine ⟨.references [l.valueAt values f.offset], ⟨trivial, fun labels start => ?_⟩, by simp [hreference], hfailure,
      ?_⟩
    · simp [DataItem.data, FieldType.content, hreference]
    · rw [Block.prepend, List.append_assoc]
      rfl
  · rename_i hprimitive
    rw [if_neg hprimitive]
    split at hfailure
    · rename_i n hnumber
      rw [hnumber]
      refine ⟨.numbers f.type.bytes [n], ⟨f.type.bytes_cases, fun labels start => ?_⟩, by simp, hfailure, ?_⟩
      · simp [DataItem.data, FieldType.content, hprimitive, hnumber]
      · rw [Block.prepend, List.append_assoc]
        rfl
    · cases hfailure

/-- The bytes of an object hold the given fields, and zeros from a position on where none of these fields is. -/
structure HoldsFields (l : ObjectLayout) (values : List (String × Value)) (labels : LabelTable) (position : Nat)
    (fields : List FieldSlot) (bytes : List AssembledByte) : Prop where
  length : bytes.length = l.size
  field : ∀ f ∈ fields, f.type.content labels (l.valueAt values f.offset) <+: bytes.drop f.offset.toNat
  zero : ∀ k < bytes.length, position ≤ k → (∀ f ∈ fields, ¬ f.Covers k) → bytes[k]? = some (.number 0)

/-- A field that follows other bytes after a gap. -/
theorem HoldsFields.cons {labels : LabelTable} {before rest : List AssembledByte} (hbefore : before.length = position)
    (hposition : position ≤ f.offset)
    (hrest : HoldsFields l values labels f.stop.toNat fields
      (before ++ zeroData (f.offset.toNat - position) ++ f.type.content labels (l.valueAt values f.offset) ++ rest)) :
    HoldsFields l values labels position (f :: fields)
      (before ++ zeroData (f.offset.toNat - position) ++ f.type.content labels (l.valueAt values f.offset) ++
        rest) := by
  have hfront : (before ++ zeroData (f.offset.toNat - position)).length = f.offset.toNat := by
    rw [List.length_append, length_zeroData]
    omega
  refine ⟨hrest.length, fun g hg => ?_, fun k hk hle hcovers => ?_⟩
  · rcases List.mem_cons.1 hg with rfl | hg
    · rw [List.append_assoc, List.drop_left' hfront]
      exact List.prefix_append ..
    · exact hrest.field g hg
  · obtain ⟨hself, hothers⟩ := List.forall_mem_cons.1 hcovers
    by_cases hstop : f.stop.toNat ≤ k
    · exact hrest.zero k hk hstop hothers
    · have hlt : k < f.offset.toNat := by
        have := f.offset_lt_stop
        rw [FieldSlot.Covers] at hself
        omega
      rw [List.append_assoc, List.getElem?_append_left (by omega), List.getElem?_append_right (by omega), zeroData,
        List.getElem?_replicate_of_lt (by omega)]

/-- The data of fields that follow each other, with the bytes in front of it. -/
theorem holdsFields_fieldData (hsize : l.size < 2 ^ 63) (hposition : position ≤ l.size)
    (hwithin : ∀ f ∈ fields, position ≤ f.offset ∧ f.stop ≤ l.size)
    (hordered : fields.Pairwise fun f g => f.stop ≤ g.offset)
    (hfailure : (h.fieldData l className values position fields).failure = none) :
    (∀ item ∈ (h.fieldData l className values position fields).items, item.IsRegular) ∧
      (∀ f ∈ fields, f.type.isReference = false → (l.valueAt values f.offset).number?.isSome) ∧
      ∀ (labels : LabelTable) (start : Nat) (before : List AssembledByte), before.length = position →
        HoldsFields l values labels position fields
          (before ++ DataItem.dataAll labels start (h.fieldData l className values position fields).items) := by
  -- along the fields, those already written move to `before`
  induction fields generalizing position with
  | nil =>
    obtain ⟨hregular, hdata⟩ := gap_spec hposition hsize
    refine ⟨hregular, by simp, fun labels start before hbefore => ⟨?_, by simp, fun k hk hle _ => ?_⟩⟩
    · rw [fieldData, hdata, List.length_append, length_zeroData]
      omega
    · rw [fieldData, hdata, List.length_append, length_zeroData] at hk
      rw [fieldData, hdata, List.getElem?_append_right (by omega), zeroData, List.getElem?_replicate_of_lt (by omega)]
  | cons f rest ih =>
    obtain ⟨⟨hle, hstop⟩, hrestWithin⟩ := List.forall_mem_cons.1 hwithin
    obtain ⟨hafter, hrestOrdered⟩ := List.pairwise_cons.1 hordered
    have hlt := f.offset_lt_stop
    obtain ⟨item, ⟨hitem, hdata⟩, hnumber, hrest, hitems⟩ := fieldData_cons hfailure
    obtain ⟨hgap, hzeros⟩ := gap_spec hle (show f.offset < 2 ^ 63 by omega)
    obtain ⟨stop, hstopNat⟩ := Int.eq_ofNat_of_zero_le (show 0 ≤ f.stop by omega)
    rw [wrap_of_small (by omega) (by omega), hstopNat] at hrest hitems
    obtain ⟨hregular, hnumbers, hholds⟩ := ih (by omega)
      (fun g hg => ⟨hstopNat ▸ hafter g hg, (hrestWithin g hg).2⟩) hrestOrdered hrest
    rw [hitems]
    refine ⟨fun i hi => ?_, List.forall_mem_cons.2 ⟨hnumber, hnumbers⟩, fun labels start before hbefore => ?_⟩
    · rcases List.mem_append.1 hi with hi | hi
      · exact hgap i hi
      · rcases List.mem_cons.1 hi with rfl | hi
        · exact hitem
        · exact hregular i hi
    · rw [DataItem.dataAll_append, hzeros, DataItem.dataAll, hdata, ← List.append_assoc, ← List.append_assoc]
      refine HoldsFields.cons hbefore hle ?_
      rw [hstopNat]
      refine hholds labels _ _ ?_
      rw [List.length_append, List.length_append, length_zeroData, FieldType.length_content]
      rw [FieldSlot.stop] at hstopNat
      omega

/-! ### Blocks -/

variable {r : ObjectResolver}

theorem vtable_ne_null (h : Heap) (id : ObjectId) : h.vtable id ≠ .null := by
  unfold vtable
  split <;> simp

/-- A label is no number. -/
theorem itemData_label (size n : Nat) :
    itemData size (LabelTable.label n) = addressData size (LabelTable.label n) := by
  have hnumeral : isNumeral (LabelTable.label n) = false := by
    have hlist : (LabelTable.label n).toList = 'o' :: ("bject".toList ++ (toString n).toList) := by
      rw [LabelTable.label, String.toList_append]
      rfl
    rw [isNumeral, hlist]
    rfl
  rw [itemData, numeral?_eq_none hnumeral]

/-- The word for a vtable is the address of its label. -/
theorem wordData_vtable (h : Heap) (id : ObjectId) (labels : LabelTable) :
    labels.wordData (h.vtable id) = addressData 4 (labels.get (h.vtable id)).1 := by
  obtain ⟨n, -, htext⟩ := (labels.get_spec (h.vtable id)).2.exists_label (h.vtable_ne_null id)
    fun x hx => h.symbol_ne_vtable id hx.symm
  rw [LabelTable.wordData, htext, itemData_label]

theorem block_ofClass (hlayout : r.classLayout className = .ok l)
    (hfailure : (h.block r (.ofClass className values)).failure = none) :
    (h.fieldData l className values (4 : Nat) l.ordered).failure = none ∧
      (h.block r (.ofClass className values)).items =
        .references [h.vtable l.metadata] :: (h.fieldData l className values (4 : Nat) l.ordered).items := by
  simp only [block, hlayout] at hfailure ⊢
  split at hfailure
  · cases hfailure
  · exact ⟨hfailure, rfl⟩

theorem mem_ordered_iff : f ∈ l.ordered ↔ f ∈ l.fields ∧ 4 ≤ f.offset := by
  rw [ObjectLayout.ordered, List.mem_mergeSort, List.mem_filter, decide_eq_true_eq]
  rfl

theorem holdsFields_block (hlayout : r.classLayout className = .ok l) (hl : l.Sound)
    (hfailure : (h.block r (.ofClass className values)).failure = none) :
    (∀ item ∈ (h.block r (.ofClass className values)).items, item.IsRegular) ∧
      (∀ f ∈ l.ordered, f.type.isReference = false → (l.valueAt values f.offset).number?.isSome) ∧
      ∀ labels start, HoldsFields l values labels 4 l.ordered
        (DataItem.dataAll labels start (h.block r (.ofClass className values)).items) := by
  obtain ⟨hnone, hitems⟩ := block_ofClass hlayout hfailure
  have hwithin : ∀ f ∈ l.ordered, (4 : Nat) ≤ f.offset ∧ f.stop ≤ l.size := fun f hf =>
    ⟨(mem_ordered_iff.1 hf).2, (hl.within f (mem_ordered_iff.1 hf).1).2⟩
  obtain ⟨hregular, hnumbers, hholds⟩ := holdsFields_fieldData hl.small hl.four_le hwithin hl.pairwise_ordered hnone
  rw [hitems]
  refine ⟨List.forall_mem_cons.2 ⟨trivial, hregular⟩, hnumbers, fun labels start => ?_⟩
  rw [DataItem.dataAll, DataItem.data, List.flatMap_singleton]
  exact hholds labels _ _ (LabelTable.length_wordData ..)

/-- The data of an instance fills its layout. -/
theorem filled_block (hlayout : r.classLayout className = .ok l) (hl : l.Sound)
    (hfailure : (h.block r (.ofClass className values)).failure = none) {labels : LabelTable}
    (hlabels : ∀ v ∈ (h.block r (.ofClass className values)).values, (labels.get v).2 = labels) (start : Nat) :
    l.Filled (h.vtable l.metadata) values labels
      (DataItem.dataAll labels start (h.block r (.ofClass className values)).items) := by
  obtain ⟨-, hnumbers, hholds⟩ := holdsFields_block hlayout hl hfailure
  obtain ⟨hnone, hitems⟩ := block_ofClass hlayout hfailure
  have hget {v : Value} (hv : v ∈ (h.block r (.ofClass className values)).values) :
      labels.get v = ((labels.get v).1, labels) := Prod.ext rfl (hlabels v hv)
  have hvalues : (h.block r (.ofClass className values)).values =
      h.vtable l.metadata :: (h.fieldData l className values (4 : Nat) l.ordered).values := by
    rw [Block.values, hitems]
    rfl
  refine ⟨(hholds labels start).length, ?_, fun f hf hoffset => ?_, fun k hk hle hcovers => ?_⟩
  · refine ⟨_, hget (hvalues ▸ List.mem_cons_self ..), ?_⟩
    rw [hitems, DataItem.dataAll, DataItem.data, List.flatMap_singleton, wordData_vtable]
    exact List.prefix_append ..
  · have hmem := mem_ordered_iff.2 ⟨hf, hoffset⟩
    refine ⟨_, ?_, (hholds labels start).field f hmem⟩
    rw [hl.valueAt_eq_valueOf hf, ObjectLayout.Content, FieldType.content]
    split
    · rename_i hreference
      refine ⟨_, hget ?_, rfl⟩
      rw [← hl.valueAt_eq_valueOf hf, hvalues]
      exact List.mem_cons_of_mem _ (valueAt_mem_fieldData hmem hreference hnone)
    · rename_i hprimitive
      obtain ⟨n, hn⟩ := Option.isSome_iff_exists.1 (hnumbers f hmem (by simpa using hprimitive))
      rw [hl.valueAt_eq_valueOf hf] at hn
      exact ⟨n, hn, by rw [hn]; rfl⟩
  · exact (hholds labels start).zero k hk hle fun f hf =>
      hcovers f (mem_ordered_iff.1 hf).1 (mem_ordered_iff.1 hf).2

theorem bytes_cases (b : BaseType) : b.bytes = 1 ∨ b.bytes = 2 ∨ b.bytes = 4 ∨ b.bytes = 8 := by
  cases b <;> simp [BaseType.bytes]

/-- The data of an array of numbers: its vtable, its length, its elements, and zeros up to the next word. -/
theorem block_primitiveArray {element : BaseType} {values : List Int}
    (hfailure : (h.block r (.primitiveArray element values)).failure = none) :
    ∃ metadata, r.arrayMetadata (Object.primitiveArrayType element) = .ok metadata ∧
      .references [h.vtable metadata] ∈ (h.block r (.primitiveArray element values)).items ∧
      (∀ item ∈ (h.block r (.primitiveArray element values)).items, item.IsRegular) ∧
      ∀ labels start, DataItem.dataAll labels start (h.block r (.primitiveArray element values)).items =
        labels.wordData (h.vtable metadata) ++ (numberData 4 values.length ++
          (values.flatMap (numberData element.bytes) ++
            zeroData (paddingTo 4 (start + (8 + values.length * element.bytes))))) := by
  simp only [block] at hfailure ⊢
  split at hfailure
  · cases hfailure
  · rename_i metadata hmetadata
    refine ⟨metadata, hmetadata, by simp, ?_, fun labels start => ?_⟩
    · by_cases hnil : values = []
      · simp [hnil, DataItem.IsRegular]
      · simp [hnil, DataItem.IsRegular, bytes_cases element]
    · by_cases hnil : values = []
      · simp [hnil, DataItem.dataAll, DataItem.data, Nat.add_assoc]
      · simp [hnil, DataItem.dataAll, DataItem.data, Nat.add_assoc]

/-- Items that take a whole number of words if they start at one. -/
structure WholeWords (items : List DataItem) : Prop where
  regular : ∀ item ∈ items, item.IsRegular
  dvd_length : ∀ labels start, 4 ∣ start → 4 ∣ (DataItem.dataAll labels start items).length

theorem dvd_add_paddingTo (position : Nat) : 4 ∣ position + paddingTo 4 position := by
  unfold paddingTo
  omega

theorem wholeWords_block {o : Object} (hr : ∀ className l, r.classLayout className = .ok l → l.Sound)
    (hfailure : (h.block r o).failure = none) : WholeWords (h.block r o).items := by
  cases o with
  | primitiveArray element values =>
    obtain ⟨metadata, -, -, hregular, hdata⟩ := block_primitiveArray hfailure
    refine ⟨hregular, fun labels start hstart => ?_⟩
    have hpadding := dvd_add_paddingTo (start + (8 + values.length * element.bytes))
    have hlength : (values.flatMap (numberData element.bytes)).length = values.length * element.bytes := by simp
    rw [hdata, List.length_append, List.length_append, List.length_append, LabelTable.length_wordData,
      length_numberData, hlength, length_zeroData]
    omega
  | objectArray type elements =>
    simp only [block] at hfailure ⊢
    split at hfailure
    · cases hfailure
    · by_cases hnil : elements = []
      · exact ⟨by simp [hnil, DataItem.IsRegular], by simp [hnil, DataItem.dataAll, DataItem.data]⟩
      · exact ⟨by simp [hnil, DataItem.IsRegular], by simp [hnil, DataItem.dataAll, DataItem.data]⟩
  | ofClass className values =>
    cases hlayout : r.classLayout className with
    | error failure =>
      rw [block, hlayout] at hfailure
      cases hfailure
    | ok l =>
      have hl := hr className l hlayout
      obtain ⟨hregular, -, hholds⟩ := holdsFields_block hlayout hl hfailure
      refine ⟨hregular, fun labels start _ => ?_⟩
      have hlength := (hholds labels start).length
      have hdvd := hl.aligned
      omega
  | metadata m =>
    exact ⟨by simp [block, metadataData, reference, DataItem.IsRegular],
      by simp [block, metadataData, reference, DataItem.dataAll, DataItem.data]⟩

end Heap

end JvmAot
