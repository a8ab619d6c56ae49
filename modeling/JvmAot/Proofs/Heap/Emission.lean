import JvmAot.Heap.Emission
import JvmAot.Proofs.Asm.Symbols
import Mathlib.Data.List.Forall2

/-! # Writing the object graph

A label means the same from then on (`LabelTable.Extends`). `Emission.adds_all`: an emission that succeeds writes
one label line for each label of the final table, in order, and its data words refer to these labels or to
symbols that the heap holds. -/

namespace JvmAot

/-! ### Labels -/

namespace LabelTable

variable {t t' : LabelTable} {v : Value}

theorem label_inj {m n : Nat} (h : label m = label n) : m = n := by
  rw [label, label, String.append_right_inj, Nat.toString_eq_ofList_toDigits, Nat.toString_eq_ofList_toDigits,
    String.ofList_inj] at h
  rw [← Nat.ofDigitChars_ten_toDigits (n := m), h, Nat.ofDigitChars_ten_toDigits]

/-- The labels given out so far mean the same in a later table. -/
def Extends (t t' : LabelTable) : Prop :=
  t.order.toList <+: t'.order.toList

namespace Extends

theorem refl : t.Extends t :=
  List.prefix_refl _

theorem trans {t'' : LabelTable} (h : t.Extends t') (h' : t'.Extends t'') : t.Extends t'' :=
  List.IsPrefix.trans h h'

theorem size_le (h : t.Extends t') : t.size ≤ t'.size := by
  simpa [size] using h.length_le

end Extends

/-- The text of a value: null is a number, a symbol stands for itself, and all else has a label. -/
inductive Names (t : LabelTable) : Value → String → Prop
  | null : Names t .null "0"
  | symbol (name : String) : Names t (.symbol name) name
  | object {v : Value} {n : Nat} (h : t.order.toList[n]? = some v) : Names t v (label n)

theorem Names.mono {text : String} (h : t.Names v text) (ht : t.Extends t') : t'.Names v text := by
  cases h with
  | null => exact .null
  | symbol => exact .symbol _
  | object h =>
    obtain ⟨more, hmore⟩ := ht
    exact .object (hmore ▸ List.getElem?_append_left (List.getElem?_eq_some_iff.1 h).1 ▸ h)

theorem Names.exists_label {text : String} (h : t.Names v text) (hnull : v ≠ .null) (hsymbol : ∀ x, v ≠ .symbol x) :
    ∃ n < t.size, text = label n := by
  cases h with
  | null => exact absurd rfl hnull
  | symbol => exact absurd rfl (hsymbol _)
  | object h => exact ⟨_, (List.getElem?_eq_some_iff.1 h).1, rfl⟩

theorem exists_names_of_mem {values : List Value} {texts : List String} {x : String}
    (h : List.Forall₂ t.Names values texts) (hx : x ∈ texts) : ∃ v ∈ values, t.Names v x := by
  obtain ⟨k, hk, rfl⟩ := List.getElem_of_mem hx
  have hlen := h.length_eq
  exact ⟨values[k], List.getElem_mem _, h.get (hlen ▸ hk) hk⟩

theorem get_spec (t : LabelTable) (v : Value) : t.Extends (t.get v).2 ∧ (t.get v).2.Names v (t.get v).1 := by
  unfold get
  split
  · exact ⟨.refl, .null⟩
  · exact ⟨.refl, .symbol _⟩
  split
  · rename_i hfind
    obtain ⟨n, hn, rfl⟩ := Option.map_eq_some_iff.1 hfind
    refine ⟨.refl, .object ?_⟩
    have horder : t.order.toList.toArray = t.order := Array.toArray_toList
    rw [← horder, List.idxOf?_toArray] at hn
    obtain ⟨hlt, rfl, -⟩ := List.idxOf?_eq_some_iff.1 hn
    simp
  · exact ⟨⟨[v], by simp⟩, .object (by simp [size])⟩

theorem getAll_spec (t : LabelTable) (values : List Value) :
    t.Extends (t.getAll values).2 ∧ List.Forall₂ (t.getAll values).2.Names values (t.getAll values).1 := by
  induction values generalizing t with
  | nil => exact ⟨.refl, .nil⟩
  | cons v rest ih =>
    obtain ⟨hfirst, hname⟩ := t.get_spec v
    obtain ⟨hrest, hnames⟩ := ih (t.get v).2
    exact ⟨hfirst.trans hrest, .cons (hname.mono hrest) hnames⟩

end LabelTable

/-! ### Values that objects hold -/

/-- The values that an object holds, other than the references of metadata. -/
def Object.values : Object → List Value
  | .objectArray _ elements => elements
  | .ofClass _ fields => fields.map (·.2)
  | .primitiveArray .. | .metadata _ => []

/-- The values that an object holds, with the references of metadata. -/
def Object.held : Object → List Value
  | .metadata m => [m.parent, m.vtable, m.element, m.nameString].filterMap fun id => id.map Value.object
  | o => o.values

/-- The values that an item of data refers to. -/
def DataItem.values : DataItem → List Value
  | .references values => values
  | .numbers .. | .zeros _ | .align _ => []

/-- The values that a block of data refers to. -/
def Block.values (b : Block) : List Value :=
  b.items.flatMap DataItem.values

/-- The symbols in a heap are all of one kind. -/
def Heap.Holds (P : String → Prop) (h : Heap) : Prop :=
  ∀ id o x, h.get? id = some o → .symbol x ∈ o.values → P x

namespace Heap
variable {h : Heap} {r : ObjectResolver} {o : Object} {x : String}

theorem values_prepend (items : List DataItem) (b : Block) :
    (b.prepend items).values = items.flatMap DataItem.values ++ b.values :=
  List.flatMap_append

theorem symbol_ne_vtable (h : Heap) (id : ObjectId) : Value.symbol x ≠ h.vtable id := by
  unfold vtable
  split <;> simp

theorem values_gap (position target : Int) : (gap position target).flatMap DataItem.values = [] := by
  unfold gap
  split <;> rfl

theorem eq_null_or_mem_of_valueAt (l : ObjectLayout) (values : List (String × Value)) (offset : Int) :
    l.valueAt values offset = .null ∨ l.valueAt values offset ∈ values.map (·.2) := by
  unfold ObjectLayout.valueAt
  split
  · rename_i f _
    cases hv : values.lookup f.name with
    | none => exact .inl rfl
    | some v =>
      obtain ⟨before, after, rfl, -⟩ := List.lookup_eq_some_iff.1 hv
      exact .inr (by simp)
  · exact .inl rfl

theorem mem_fieldData {l : ObjectLayout} {className : String} {values : List (String × Value)} {position : Int}
    {fields : List FieldSlot} {v : Value} (hv : v ∈ (h.fieldData l className values position fields).values) :
    v = .null ∨ v ∈ values.map (·.2) := by
  induction fields generalizing position with
  | nil =>
    rw [fieldData, Block.values, values_gap] at hv
    cases hv
  | cons f rest ih =>
    simp only [fieldData] at hv
    split at hv
    · simp only [values_prepend, List.flatMap_append, values_gap, List.nil_append, List.mem_append] at hv
      rcases hv with hv | hv
      · rw [List.mem_singleton.1 hv]
        exact eq_null_or_mem_of_valueAt l values f.offset
      · exact ih hv
    split at hv
    · simp only [values_prepend, List.flatMap_append, values_gap, List.nil_append, List.mem_append] at hv
      rcases hv with hv | hv
      · cases hv
      · exact ih hv
    · rw [Block.values, values_gap] at hv
      cases hv

/-- The data of an object refers to what the object holds, to vtables, and to nothing else. -/
theorem mem_block {v : Value} (hv : v ∈ (h.block r o).values) : v = .null ∨ v ∈ o.held ∨ ∃ id, v = h.vtable id := by
  cases o with
  | primitiveArray element values =>
    simp only [block] at hv
    split at hv
    · cases hv
    · rename_i metadata _
      have hv : v = h.vtable metadata := by
        by_cases he : values = []
        · simpa [Block.values, DataItem.values, he] using hv
        · simpa [Block.values, DataItem.values, he] using hv
      exact .inr (.inr ⟨metadata, hv⟩)
  | objectArray type elements =>
    simp only [block] at hv
    split at hv
    · cases hv
    · rename_i metadata _
      have hv : v = h.vtable metadata ∨ v ∈ elements := by
        by_cases he : elements = []
        · simpa [Block.values, DataItem.values, he] using hv
        · simpa [Block.values, DataItem.values, he] using hv
      exact .inr (hv.symm.imp_right fun hv => ⟨metadata, hv⟩)
  | ofClass className values =>
    simp only [block] at hv
    split at hv
    · cases hv
    split at hv
    · cases hv
    · rw [values_prepend] at hv
      rcases List.mem_append.1 hv with hv | hv
      · exact .inr (.inr ⟨_, List.mem_singleton.1 hv⟩)
      · exact (mem_fieldData hv).imp_right .inl
  | metadata m =>
    have hreference {id : Option ObjectId} (hv : v ∈ (reference id).values) : v = .null ∨ id.map Value.object = some v := by
      cases id with
      | none => exact .inl (List.mem_singleton.1 hv)
      | some id => exact .inr (congrArg some (List.mem_singleton.1 hv).symm)
    simp only [block, Block.values, metadataData, List.flatMap_cons, List.flatMap_nil, List.mem_append, List.append_nil] at hv
    have hheld {id : Option ObjectId} (hid : id ∈ [m.parent, m.vtable, m.element, m.nameString])
        (hv : v ∈ (reference id).values) : v = .null ∨ v ∈ (Object.metadata m).held ∨ ∃ id, v = h.vtable id := by
      rcases hreference hv with hv | hv
      · exact .inl hv
      · exact .inr (.inl (List.mem_filterMap.2 ⟨id, hid, hv⟩))
    rcases hv with hv | hv | hv | hv | hv
    · exact hheld (by simp) hv
    · cases hv
    · exact hheld (by simp) hv
    · exact hheld (by simp) hv
    · exact hheld (by simp) hv

theorem symbol_mem_held (hx : .symbol x ∈ o.held) : .symbol x ∈ o.values := by
  cases o with
  | metadata m =>
    obtain ⟨id, -, hid⟩ := List.mem_filterMap.1 hx
    obtain ⟨_, -, heq⟩ := Option.map_eq_some_iff.1 hid
    cases heq
  | primitiveArray | objectArray | ofClass => exact hx

/-- The data of an object refers to no symbol that the object does not hold. -/
theorem symbol_mem_block (hx : .symbol x ∈ (h.block r o).values) : .symbol x ∈ o.values := by
  rcases mem_block hx with hx | hx | ⟨id, hx⟩
  · cases hx
  · exact symbol_mem_held hx
  · exact absurd hx (h.symbol_ne_vtable id)

end Heap

/-! ### Lines of data -/

namespace DataItem
variable {P : String → Prop} {t : LabelTable}

/-- A reference is a symbol of the kind that the heap holds, or a label of the table. -/
def Refers (P : String → Prop) (t : LabelTable) (x : String) : Prop :=
  P x ∨ ∃ n, n < t.size ∧ x = LabelTable.label n

theorem Refers.mono {t' : LabelTable} {x : String} (h : Refers P t x) (ht : t.Extends t') : Refers P t' x := by
  rcases h with h | ⟨n, hn, rfl⟩
  · exact .inl h
  · exact .inr ⟨n, Nat.lt_of_lt_of_le hn ht.size_le, rfl⟩

theorem line_spec (item : DataItem) (hP : ∀ x, .symbol x ∈ item.values → P x) (t : LabelTable) :
    t.Extends (item.line t).2 ∧ (item.line t).1.definition? = none ∧
      ∀ x ∈ (item.line t).1.mentions, Refers P (item.line t).2 x := by
  cases item with
  | references values =>
    obtain ⟨hextends, hnames⟩ := t.getAll_spec values
    refine ⟨hextends, rfl, fun x hx => ?_⟩
    obtain ⟨hmem, hnumeral⟩ := List.mem_filter.1 hx
    obtain ⟨v, hv, hname⟩ := LabelTable.exists_names_of_mem hnames hmem
    cases hname with
    | null => exact absurd hnumeral (by decide)
    | symbol => exact .inl (hP x hv)
    | object hn => exact .inr ⟨_, (List.getElem?_eq_some_iff.1 hn).1, rfl⟩
  | numbers size values =>
    refine ⟨.refl, rfl, fun x hx => ?_⟩
    rw [line, Line.mentions_directive_of_isNumeral] at hx
    · cases hx
    · intro item hitem
      obtain ⟨n, -, rfl⟩ := List.mem_map.1 hitem
      exact isNumeral_toString n
  | zeros count => exact ⟨.refl, rfl, by simp [line, Line.mentions]⟩
  | align bytes => exact ⟨.refl, rfl, by simp [line, Line.mentions]⟩

theorem lines_spec (items : List DataItem) (hP : ∀ x, .symbol x ∈ items.flatMap values → P x) (t : LabelTable) :
    t.Extends (lines t items).2 ∧ definitions (lines t items).1 = [] ∧
      ∀ x ∈ mentions (lines t items).1, Refers P (lines t items).2 x := by
  induction items generalizing t with
  | nil => exact ⟨.refl, rfl, by simp [lines]⟩
  | cons item rest ih =>
    obtain ⟨hfirst, hnone, hrefs⟩ := line_spec item
      (fun x hx => hP x (List.mem_flatMap_of_mem (List.mem_cons_self ..) hx)) t
    obtain ⟨hrest, hnones, hmore⟩ := ih
      (fun x hx => hP x (by rw [List.flatMap_cons]; exact List.mem_append_right _ hx)) (item.line t).2
    refine ⟨hfirst.trans hrest, ?_, fun x hx => ?_⟩
    · simp only [lines, definitions_cons, hnone, hnones]
      rfl
    · simp only [lines, mentions_cons, List.mem_append] at hx
      exact hx.elim (fun hx => (hrefs x hx).mono hrest) (hmore x)

end DataItem

/-! ### Emission -/

/-- A new string is an object around another new object that holds its characters. -/
def ObjectResolver.MakesStrings (r : ObjectResolver) : Prop :=
  ∀ {text h id h'}, r.newString text h = .ok (id, h') → ∃ units className field,
    h'.objects = (h.objects.push (.characters units)).push (.ofClass className [(field, .object h.objects.size)]) ∧
      id = h.objects.size + 1

namespace Heap
variable {P : String → Prop} {h : Heap}

theorem Holds.allocate {o : Object} (hP : h.Holds P) (ho : ∀ x, .symbol x ∈ o.values → P x) :
    (h.allocate o).2.Holds P := by
  intro id o' x hget hx
  simp only [Heap.allocate, get?, Array.getElem?_push] at hget
  split at hget
  · cases hget
    exact ho x hx
  · exact hP _ _ _ hget hx

theorem Holds.set {o : Object} {id : ObjectId} (hP : h.Holds P) (ho : ∀ x, .symbol x ∈ o.values → P x) :
    (h.set id o).Holds P := by
  intro id' o' x hget hx
  simp only [Heap.set, get?, Array.getElem?_setIfInBounds] at hget
  split at hget
  · split at hget
    · cases hget
      exact ho x hx
    · cases hget
  · exact hP _ _ _ hget hx

end Heap

namespace Emission
variable {P : String → Prop} {r : ObjectResolver} {e e' : Emission} {v : Value}

/-- What writing adds: data that refers to labels of the table and to symbols of the heap. -/
structure Adds (P : String → Prop) (e e' : Emission) (names : List String) : Prop where
  heap : e.heap.Holds P → e'.heap.Holds P
  labels : e.labels.Extends e'.labels
  lines : e.heap.Holds P → ∃ lines, e'.lines.toList = e.lines.toList ++ lines ∧ definitions lines = names ∧
    ∀ x ∈ mentions lines, DataItem.Refers P e'.labels x

theorem Adds.refl : Adds P e e [] :=
  ⟨id, .refl, fun _ => ⟨[], by simp, rfl, by simp⟩⟩

theorem Adds.trans {e'' : Emission} {names more : List String} (h : Adds P e e' names) (h' : Adds P e' e'' more) :
    Adds P e e'' (names ++ more) := by
  refine ⟨h'.heap ∘ h.heap, h.labels.trans h'.labels, fun hP => ?_⟩
  obtain ⟨lines, hlines, hnames, hrefs⟩ := h.lines hP
  obtain ⟨lines', hlines', hnames', hrefs'⟩ := h'.lines (h.heap hP)
  refine ⟨lines ++ lines', by simp [hlines, hlines'], by simp [hnames, hnames'], fun x hx => ?_⟩
  rw [mentions_append, List.mem_append] at hx
  exact hx.elim (fun hx => (hrefs x hx).mono h'.labels) (hrefs' x)

theorem adds_write {b : Block} (hP : e.heap.Holds P → ∀ x, .symbol x ∈ b.values → P x) : Adds P e (e.write b).1 [] := by
  have hextends := (DataItem.lines_spec (P := fun _ => True) b.items (fun _ _ => trivial) e.labels).1
  refine ⟨id, hextends, fun hheap => ?_⟩
  obtain ⟨-, hnone, hrefs⟩ := DataItem.lines_spec b.items (hP hheap) e.labels
  exact ⟨_, by simp [write], hnone, hrefs⟩

section
variable {m m' : Metadata} {id : ObjectId}

/-- Metadata that has its name string is left alone, and other metadata gets a new one. -/
theorem ensureName_cases (h : e.ensureName r id m = .ok (m', e')) :
    (m.nameString.isSome ∧ m' = m ∧ e' = e) ∨
      ∃ string heap, m.nameString = none ∧ r.newString m.name e.heap = .ok (string, heap) ∧
        m' = { m with nameString := some string } ∧ e' = { e with heap := heap.set id (.metadata m') } := by
  unfold ensureName at h
  split at h
  · rename_i hname
    cases h
    exact .inl ⟨by rw [hname]; rfl, rfl, rfl⟩
  · rename_i hname
    split at h
    · cases h
    · rename_i string heap hnew
      cases h
      exact .inr ⟨string, heap, hname, hnew, rfl, rfl⟩

theorem ensureName_keeps (h : e.ensureName r id m = .ok (m', e')) :
    m'.nameString.isSome ∧ e'.labels = e.labels ∧ e'.lines = e.lines := by
  rcases ensureName_cases h with ⟨hsome, rfl, rfl⟩ | ⟨string, heap, -, -, rfl, rfl⟩
  · exact ⟨hsome, rfl, rfl⟩
  · exact ⟨rfl, rfl, rfl⟩

theorem adds_ensureName (hr : r.MakesStrings) (h : e.ensureName r id m = .ok (m', e')) : Adds P e e' [] := by
  rcases ensureName_cases h with ⟨-, -, rfl⟩ | ⟨string, heap, -, hnew, rfl, rfl⟩
  · exact .refl
  · refine ⟨fun hP => ?_, .refl, fun _ => ⟨[], by simp, rfl, by simp⟩⟩
    obtain ⟨units, className, field, hobjects, -⟩ := hr hnew
    obtain rfl : heap = ((e.heap.allocate (.characters units)).2.allocate
        (.ofClass className [(field, .object e.heap.objects.size)])).2 := by
      obtain ⟨objects⟩ := heap
      exact congrArg Heap.mk hobjects
    refine ((hP.allocate fun x hx => ?_).allocate fun x hx => ?_).set fun x hx => ?_
    · cases hx
    · simp [Object.values] at hx
    · cases hx

end

theorem adds_value (hr : r.MakesStrings) (h : value r e v = (e', none)) : Adds P e e' [] := by
  have hwrite {e : Emission} {b : Block} (hP : e.heap.Holds P → ∀ x, .symbol x ∈ b.values → P x)
      (h : e.write b = (e', none)) : Adds P e e' [] := by
    have := adds_write hP
    rwa [h] at this
  unfold value at h
  split at h
  · exact hwrite (fun _ x hx => by simp [Block.values, DataItem.values] at hx) h
  · split at h
    · split at h
      · cases h
      · rename_i e₁ hname
        have hblock := hwrite (fun _ x hx => by cases Heap.symbol_mem_block hx) h
        exact (adds_ensureName hr hname).trans hblock
    · rename_i hget
      exact hwrite (fun hP x hx => hP _ _ _ hget (Heap.symbol_mem_block hx)) h
    · cases h
  · cases h
  · cases h

/-- Each label of the final table is written once, in order. -/
theorem adds_run {fuel next : Nat} (hr : r.MakesStrings) (h : run r fuel next e = (e', none))
    (hnext : next ≤ e.labels.size) :
    next ≤ e'.labels.size ∧ Adds P e e' ((List.range' next (e'.labels.size - next)).map LabelTable.label) := by
  induction fuel generalizing next e with
  | zero => cases h
  | succ fuel ih =>
    rw [run] at h
    split at h
    · rename_i hnone
      obtain rfl : e = e' := congrArg Prod.fst h
      have hsize : e.labels.size ≤ next := by simpa [LabelTable.size] using hnone
      rw [Nat.sub_eq_zero_of_le hsize]
      exact ⟨hnext, .refl⟩
    · rename_i w hsome
      have hlt : next < e.labels.size := (Array.getElem?_eq_some_iff.1 hsome).1
      split at h
      · cases h
      · rename_i e₁ hvalue
        have hlabel : Adds P e { e with lines := e.lines.push (.label (LabelTable.label next)) }
            [LabelTable.label next] :=
          ⟨id, .refl, fun _ => ⟨[.label (LabelTable.label next)], by simp, rfl, by simp [Line.mentions]⟩⟩
        have hfirst := hlabel.trans (adds_value hr hvalue)
        obtain ⟨hle, hrest⟩ := ih h (Nat.lt_of_lt_of_le hlt hfirst.labels.size_le)
        refine ⟨Nat.le_of_succ_le hle, ?_⟩
        have hall := hfirst.trans hrest
        rw [show e'.labels.size - next = (e'.labels.size - (next + 1)) + 1 by omega, List.range'_succ]
        exact hall

theorem adds_all (hr : r.MakesStrings) (h : all r e = (e', none)) :
    Adds P e e' ((List.range e'.labels.size).map LabelTable.label) := by
  have := (adds_run (P := P) hr h (Nat.zero_le _)).2
  rwa [Nat.sub_zero, ← List.range_eq_range'] at this

end Emission

end JvmAot
