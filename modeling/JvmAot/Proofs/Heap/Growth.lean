import JvmAot.Proofs.Heap.Emission

/-! # What stays while objects are written

Writing an object gives out labels and adds name strings to metadata, and changes nothing else: data that was written
with the labels of that moment reads the same with any later table (`DataItem.lines_of_extends`) and for any later
heap (`Heap.Grows.items_block`). `Emission.value_spec` says all that writing one object does. -/

namespace JvmAot

/-! ### Labels -/

namespace LabelTable

variable {t t' : LabelTable} {v : Value} {values : List Value}

theorem find?_eq_none : t.find? v = none ↔ v ∉ t.order.toList := by
  have horder : t.order.toList.toArray = t.order := Array.toArray_toList
  rw [find?, Option.map_eq_none_iff, ← horder, List.idxOf?_toArray, List.idxOf?_eq_none_iff]

theorem get_eq (hnull : v ≠ .null) (hsymbol : ∀ x, v ≠ .symbol x) :
    t.get v = match t.find? v with
      | some label => (label, t)
      | none => (label t.size, ⟨t.order.push v⟩) := by
  unfold get
  split
  · exact absurd rfl hnull
  · exact absurd rfl (hsymbol _)
  · rfl

/-- A value that needs a new label gets the next one. All others leave the table as it is. -/
theorem get_cases (t : LabelTable) (v : Value) :
    ((v = .null ∨ (∃ x, v = .symbol x) ∨ v ∈ t.order.toList) ∧ (t.get v).2 = t) ∨
      (v ≠ .null ∧ (∀ x, v ≠ .symbol x) ∧ v ∉ t.order.toList ∧ t.get v = (label t.size, ⟨t.order.push v⟩)) := by
  by_cases hnull : v = .null
  · subst hnull
    exact .inl ⟨.inl rfl, rfl⟩
  by_cases hsymbol : ∃ x, v = .symbol x
  · obtain ⟨x, rfl⟩ := hsymbol
    exact .inl ⟨.inr (.inl ⟨x, rfl⟩), rfl⟩
  have hsymbol : ∀ x, v ≠ .symbol x := fun x hx => hsymbol ⟨x, hx⟩
  rw [get_eq hnull hsymbol]
  by_cases hmem : v ∈ t.order.toList
  · refine .inl ⟨.inr (.inr hmem), ?_⟩
    cases hfind : t.find? v with
    | some text => rfl
    | none => exact absurd hmem (find?_eq_none.1 hfind)
  · rw [find?_eq_none.2 hmem]
    exact .inr ⟨hnull, hsymbol, hmem, rfl⟩

/-- No value has two labels, and neither null nor symbols have one. -/
structure Proper (t : LabelTable) : Prop where
  nodup : t.order.toList.Nodup
  labelled : ∀ v ∈ t.order.toList, v ≠ .null ∧ ∀ x, v ≠ .symbol x

namespace Proper

theorem empty : Proper {} :=
  ⟨List.nodup_nil, by simp⟩

theorem get (h : t.Proper) (v : Value) : (t.get v).2.Proper := by
  rcases t.get_cases v with ⟨-, heq⟩ | ⟨hnull, hsymbol, hnew, heq⟩
  · rwa [heq]
  · rw [heq]
    refine ⟨?_, fun w hw => ?_⟩
    · rw [Array.toList_push]
      refine List.nodup_append.2 ⟨h.nodup, by simp, fun w hw w' hw' heq => hnew ?_⟩
      rw [← List.mem_singleton.1 hw', ← heq]
      exact hw
    · rcases List.mem_append.1 (Array.toList_push ▸ hw) with hw | hw
      · exact h.labelled w hw
      · rw [List.mem_singleton.1 hw]
        exact ⟨hnull, hsymbol⟩

theorem getAll (h : t.Proper) (values : List Value) : (t.getAll values).2.Proper := by
  induction values generalizing t with
  | nil => exact h
  | cons v rest ih => exact ih (h.get v)

/-- A value has one text. -/
theorem names_unique {x y : String} (h : t.Proper) (hx : t.Names v x) (hy : t.Names v y) : x = y := by
  cases hx with
  | null =>
    cases hy with
    | null => rfl
    | object hn => exact absurd rfl (h.labelled _ (List.mem_of_getElem? hn)).1
  | symbol =>
    cases hy with
    | symbol => rfl
    | object hn => exact absurd rfl ((h.labelled _ (List.mem_of_getElem? hn)).2 _)
  | @object _ m hm =>
    have hmem := h.labelled v (List.mem_of_getElem? hm)
    cases hy with
    | null => exact absurd rfl hmem.1
    | symbol => exact absurd rfl (hmem.2 _)
    | @object _ n hn =>
      have hlt := (List.getElem?_eq_some_iff.1 hm).1
      rw [(List.getElem?_inj hlt h.nodup).1 (hm.trans hn.symm)]

end Proper

theorem mem_get {w : Value} (hw : w ∈ (t.get v).2.order.toList) : w ∈ t.order.toList ∨ w = v := by
  rcases t.get_cases v with ⟨-, heq⟩ | ⟨-, -, -, heq⟩
  · rw [heq] at hw
    exact .inl hw
  · rw [heq, Array.toList_push] at hw
    exact (List.mem_append.1 hw).imp_right List.mem_singleton.1

theorem mem_getAll {w : Value} (hw : w ∈ (t.getAll values).2.order.toList) : w ∈ t.order.toList ∨ w ∈ values := by
  induction values generalizing t with
  | nil => exact .inl hw
  | cons v rest ih =>
    rcases ih (t := (t.get v).2) hw with hw | hw
    · rcases mem_get hw with hw | rfl
      · exact .inl hw
      · exact .inr (List.mem_cons_self ..)
    · exact .inr (List.mem_cons_of_mem _ hw)

theorem find?_of_extends {text : String} (h : t.find? v = some text) (ht : t.Extends t') : t'.find? v = some text := by
  obtain ⟨n, hn, rfl⟩ := Option.map_eq_some_iff.1 h
  refine Option.map_eq_some_iff.2 ⟨n, ?_, rfl⟩
  have horder : t.order.toList.toArray = t.order := Array.toArray_toList
  have horder' : t'.order.toList.toArray = t'.order := Array.toArray_toList
  rw [← horder, List.idxOf?_toArray] at hn
  rw [← horder', List.idxOf?_toArray]
  obtain ⟨more, hmore⟩ := ht
  obtain ⟨hlt, hget, hbefore⟩ := List.idxOf?_eq_some_iff.1 hn
  rw [← hmore, List.idxOf?_eq_some_iff]
  refine ⟨by rw [List.length_append]; omega, ?_, fun j hj => ?_⟩
  · rw [List.getElem_append_left hlt]
    exact hget
  · rw [List.getElem_append_left (by omega)]
    exact hbefore j hj

theorem find?_push (h : t.find? v = none) : LabelTable.find? ⟨t.order.push v⟩ v = some (label t.size) := by
  have hnot := find?_eq_none.1 h
  have hpush : t.order.push v = (t.order.toList ++ [v]).toArray := by
    rw [← Array.toList_push, Array.toArray_toList]
  refine Option.map_eq_some_iff.2 ⟨t.size, ?_, rfl⟩
  show (t.order.push v).idxOf? v = some t.size
  rw [hpush, List.idxOf?_toArray, List.idxOf?_eq_some_iff]
  refine ⟨by simp [size], by simp [size], fun j hj heq => hnot ?_⟩
  have hj : j < t.order.toList.length := by simpa [size] using hj
  rw [List.getElem_append_left hj] at heq
  exact heq ▸ List.getElem_mem hj

/-- A label that was given out is what later tables give too. -/
theorem get_of_extends (h : (t.get v).2.Extends t') : t'.get v = ((t.get v).1, t') := by
  by_cases hnull : v = .null
  · subst hnull
    rfl
  by_cases hsymbol : ∃ x, v = .symbol x
  · obtain ⟨x, rfl⟩ := hsymbol
    rfl
  have hsymbol : ∀ x, v ≠ .symbol x := fun x hx => hsymbol ⟨x, hx⟩
  rw [get_eq hnull hsymbol] at h ⊢
  rw [get_eq hnull hsymbol]
  cases hv : t.find? v with
  | some text =>
    rw [hv] at h
    rw [find?_of_extends hv h]
  | none =>
    rw [hv] at h
    rw [find?_of_extends (find?_push hv) h]

theorem getAll_of_extends (h : (t.getAll values).2.Extends t') : t'.getAll values = ((t.getAll values).1, t') := by
  induction values generalizing t with
  | nil => rfl
  | cons v rest ih =>
    have hfirst : (t.get v).2.Extends t' := ((t.get v).2.getAll_spec rest).1.trans h
    simp only [getAll, get_of_extends hfirst, ih (t := (t.get v).2) h]

/-- In the end each value has the label that it has by itself. -/
theorem getAll_eq_map (h : (t.getAll values).2.Extends t') : (t.getAll values).1 = values.map fun v => (t'.get v).1 := by
  induction values generalizing t with
  | nil => rfl
  | cons v rest ih =>
    have hfirst : (t.get v).2.Extends t' := ((t.get v).2.getAll_spec rest).1.trans h
    simp only [getAll, List.map_cons, get_of_extends hfirst, ih (t := (t.get v).2) h]

theorem get_of_names {text : String} (h : t.Names v text) : (t.get v).2 = t := by
  rcases t.get_cases v with ⟨-, heq⟩ | ⟨hnull, hsymbol, hnot, -⟩
  · exact heq
  cases h with
  | null => exact absurd rfl hnull
  | symbol => exact absurd rfl (hsymbol _)
  | object hget => exact absurd (List.mem_of_getElem? hget) hnot

/-- A value that needs no new label is named by the one that it has. -/
theorem names_get (h : (t.get v).2 = t) : t.Names v (t.get v).1 := by
  have hnames := (t.get_spec v).2
  rwa [h] at hnames

end LabelTable

/-! ### Lines of data -/

namespace DataItem

variable {t t' : LabelTable} {items : List DataItem}

theorem line_of_extends {item : DataItem} (h : (item.line t).2.Extends t') : item.line t' = ((item.line t).1, t') := by
  cases item with
  | references values => simp only [line, LabelTable.getAll_of_extends (t := t) h]
  | numbers | zeros | align => rfl

theorem extends_lines (items : List DataItem) (t : LabelTable) : t.Extends (lines t items).2 :=
  (lines_spec (P := fun _ => True) items (fun _ _ => trivial) t).1

/-- Lines that were written once are the same with a later table. -/
theorem lines_of_extends (items : List DataItem) (h : (lines t items).2.Extends t') :
    lines t' items = ((lines t items).1, t') := by
  induction items generalizing t with
  | nil => rfl
  | cons item rest ih =>
    have hfirst : (item.line t).2.Extends t' := (extends_lines rest _).trans h
    simp only [lines, line_of_extends hfirst, ih (t := (item.line t).2) h]

/-- An item in assembly text if what it refers to has labels. -/
def text (t : LabelTable) : DataItem → Line
  | references values => .directive ".word" (values.map fun v => (t.get v).1)
  | item => (item.line t).1

theorem line_eq_text {item : DataItem} (h : (item.line t).2.Extends t') : (item.line t).1 = item.text t' := by
  cases item with
  | references values => exact congrArg (Line.directive ".word") (LabelTable.getAll_eq_map h)
  | numbers | zeros | align => rfl

theorem lines_eq_text (h : (lines t items).2.Extends t') : (lines t items).1 = items.map (text t') := by
  induction items generalizing t with
  | nil => rfl
  | cons item rest ih =>
    have hfirst : (item.line t).2.Extends t' := (extends_lines rest _).trans h
    simp only [lines, List.map_cons, line_eq_text hfirst, ih (t := (item.line t).2) h]

theorem proper_lines (h : t.Proper) (items : List DataItem) : (lines t items).2.Proper := by
  induction items generalizing t with
  | nil => exact h
  | cons item rest ih =>
    have hfirst : (item.line t).2.Proper := by
      cases item with
      | references values => exact h.getAll values
      | numbers | zeros | align => exact h
    exact ih hfirst

theorem mem_lines {w : Value} (hw : w ∈ (lines t items).2.order.toList) :
    w ∈ t.order.toList ∨ w ∈ items.flatMap values := by
  induction items generalizing t with
  | nil => exact .inl hw
  | cons item rest ih =>
    rw [List.flatMap_cons]
    rcases ih (t := (item.line t).2) hw with hw | hw
    · cases item with
      | references values => exact (LabelTable.mem_getAll hw).imp_right (List.mem_append_left _)
      | numbers | zeros | align => exact .inl hw
    · exact .inr (List.mem_append_right _ hw)

/-- Every value that data refers to has a label once the data is written, if it needs one. -/
theorem names_of_mem_lines {v : Value} (hv : v ∈ items.flatMap values) (t : LabelTable) :
    ∃ text, (lines t items).2.Names v text := by
  induction items generalizing t with
  | nil => cases hv
  | cons item rest ih =>
    rw [List.flatMap_cons] at hv
    rcases List.mem_append.1 hv with hv | hv
    · cases item with
      | references values =>
        obtain ⟨-, hnames⟩ := t.getAll_spec values
        obtain ⟨k, hk, rfl⟩ := List.getElem_of_mem hv
        have hlen := hnames.length_eq
        exact ⟨_, (hnames.get hk (hlen ▸ hk)).mono (extends_lines rest _)⟩
      | numbers | zeros | align => cases hv
    · exact ih hv _

/-- Values that items refer to have their labels once the items are written. -/
theorem get_of_mem_lines {v : Value} (hv : v ∈ items.flatMap values) (h : (lines t items).2.Extends t') :
    (t'.get v).2 = t' := by
  obtain ⟨text, hnames⟩ := names_of_mem_lines hv t
  exact LabelTable.get_of_names (hnames.mono h)

end DataItem

/-! ### Heaps -/

namespace Heap

variable {h h' h'' : Heap} {r : ObjectResolver} {id : ObjectId} {o : Object} {m : Metadata}

/-- How a heap goes on while objects are written: metadata gains the string with its name, and new objects are no
metadata. -/
structure Grows (h h' : Heap) : Prop where
  kept : ∀ id o, h.get? id = some o → (∀ m, o ≠ .metadata m) → h'.get? id = some o
  named : ∀ id m, h.get? id = some (.metadata m) →
    ∃ nameString, h'.get? id = some (.metadata { m with nameString }) ∧
      (m.nameString.isSome → nameString = m.nameString)
  vtable : h'.vtable = h.vtable

namespace Grows

theorem refl : h.Grows h :=
  ⟨fun _ _ hget _ => hget, fun _ m hget => ⟨m.nameString, hget, fun _ => rfl⟩, rfl⟩

theorem trans (hg : h.Grows h') (hg' : h'.Grows h'') : h.Grows h'' := by
  refine ⟨fun id o hget ho => hg'.kept id o (hg.kept id o hget ho) ho, fun id m hget => ?_, hg'.vtable.trans hg.vtable⟩
  obtain ⟨name, hget', hname⟩ := hg.named id m hget
  obtain ⟨name', hget'', hname'⟩ := hg'.named id _ hget'
  refine ⟨name', hget'', fun hsome => ?_⟩
  have heq := hname hsome
  rw [← heq]
  exact hname' (heq ▸ hsome)

/-- An object that was written stays as it is. -/
theorem get? (hg : h.Grows h') (hget : h.get? id = some o) (hnamed : ∀ m, o = .metadata m → m.nameString.isSome) :
    h'.get? id = some o := by
  cases o with
  | metadata m =>
    obtain ⟨name, hget', hname⟩ := hg.named id m hget
    rw [hget', hname (hnamed m rfl)]
  | primitiveArray | objectArray | ofClass => exact hg.kept id _ hget (by simp)

theorem items_fieldData (h h' : Heap) (l : ObjectLayout) (className : String) (values : List (String × Value)) (position : Int)
    (fields : List FieldSlot) :
    (h'.fieldData l className values position fields).items = (h.fieldData l className values position fields).items ∧
      ((h'.fieldData l className values position fields).failure = none ↔
        (h.fieldData l className values position fields).failure = none) := by
  induction fields generalizing position with
  | nil => exact ⟨rfl, Iff.rfl⟩
  | cons f rest ih =>
    obtain ⟨hitems, hfailure⟩ := ih (IntType.int.wrap (f.offset + f.type.bytes))
    simp only [fieldData]
    split
    · exact ⟨by simp only [Block.prepend, hitems], hfailure⟩
    · split
      · exact ⟨by simp only [Block.prepend, hitems], hfailure⟩
      · simp

/-- The data of an object does not change. -/
theorem block (hg : h.Grows h') (r : ObjectResolver) (o : Object) :
    (h'.block r o).items = (h.block r o).items ∧ ((h'.block r o).failure = none ↔ (h.block r o).failure = none) := by
  cases o with
  | primitiveArray | objectArray =>
    simp only [Heap.block, hg.vtable]
    exact ⟨trivial, trivial⟩
  | ofClass className values =>
    simp only [Heap.block, hg.vtable]
    cases r.classLayout className with
    | error => exact ⟨rfl, Iff.rfl⟩
    | ok l =>
      obtain ⟨hitems, hfailure⟩ :=
        items_fieldData h h' l className values ObjectLayout.headerSize l.ordered
      dsimp only
      split
      · exact ⟨rfl, Iff.rfl⟩
      · exact ⟨by simp only [Block.prepend, hitems], hfailure⟩
  | metadata m => exact ⟨rfl, Iff.rfl⟩

end Grows

section
variable {units : List UInt16} {className field : String}

/-- A heap with two more objects and a change to one that was there. -/
theorem get?_set_push (hlt : id < h.objects.size)
    (hobjects : h'.objects =
      (h.objects.push (.characters units)).push (.ofClass className [(field, .object h.objects.size)])) (i : ObjectId) :
    (h'.set id o).get? i =
      if i = id then some o
      else if i = h.objects.size + 1 then some (.ofClass className [(field, .object h.objects.size)])
      else if i = h.objects.size then some (.characters units)
      else h.get? i := by
  have hlt' : id < h.objects.size + 1 + 1 := Nat.lt_succ_of_lt (Nat.lt_succ_of_lt hlt)
  simp only [Heap.set, Heap.get?, Array.getElem?_setIfInBounds, hobjects, Array.getElem?_push, Array.size_push, hlt',
    if_true, eq_comm (a := id)]

/-- Metadata gets a new string with its name. -/
theorem grows_set (hget : h.get? id = some (.metadata m)) (hnone : m.nameString = none)
    (hobjects : h'.objects =
      (h.objects.push (.characters units)).push (.ofClass className [(field, .object h.objects.size)])) :
    h.Grows (h'.set id (.metadata { m with nameString := some (h.objects.size + 1) })) := by
  have hlt : id < h.objects.size := (Array.getElem?_eq_some_iff.1 hget).1
  have hset := get?_set_push (o := .metadata { m with nameString := some (h.objects.size + 1) }) hlt hobjects
  have hkept : ∀ i o, i ≠ id → h.get? i = some o →
      (h'.set id (.metadata { m with nameString := some (h.objects.size + 1) })).get? i = some o := by
    intro i o hne hi
    have hi' : i < h.objects.size := (Array.getElem?_eq_some_iff.1 hi).1
    rw [hset, if_neg hne, if_neg (Nat.ne_of_lt (Nat.lt_succ_of_lt hi')), if_neg (Nat.ne_of_lt hi'), hi]
  refine ⟨fun i o hi ho => ?_, fun i m' hi => ?_, funext fun i => ?_⟩
  · refine hkept i o (fun heq => ?_) hi
    subst heq
    rw [hget] at hi
    exact ho m (Option.some.inj hi).symm
  · by_cases heq : i = id
    · subst heq
      rw [hget] at hi
      cases hi
      exact ⟨_, (hset i).trans (if_pos rfl), by simp [hnone]⟩
    · exact ⟨m'.nameString, hkept i _ heq hi, fun _ => rfl⟩
  · unfold Heap.vtable Heap.metadata?
    by_cases heq : i = id
    · subst heq
      rw [hset, if_pos rfl, hget]
      rfl
    · rw [hset, if_neg heq]
      -- The two objects that were added are no metadata.
      by_cases hstring : i = h.objects.size + 1
      · have hnone : h.get? i = none := Array.getElem?_eq_none (by rw [hstring]; exact Nat.le_succ _)
        rw [if_pos hstring, hnone]
      · rw [if_neg hstring]
        by_cases hcharacters : i = h.objects.size
        · have hnone : h.get? i = none := Array.getElem?_eq_none (Nat.le_of_eq hcharacters.symm)
          rw [if_pos hcharacters, hnone, Object.characters]
        · rw [if_neg hcharacters]

end

end Heap

/-! ### Writing an object -/

namespace Emission

variable {r : ObjectResolver} {e e' : Emission} {v : Value} {id : ObjectId} {m m' : Metadata}

theorem ensureName_spec (hr : r.MakesStrings) (hget : e.heap.get? id = some (.metadata m))
    (h : e.ensureName r id m = .ok (m', e')) :
    e.heap.Grows e'.heap ∧ e'.heap.get? id = some (.metadata m') := by
  rcases ensureName_cases h with ⟨-, rfl, rfl⟩ | ⟨string, heap, hname, hnew, rfl, rfl⟩
  · exact ⟨.refl, hget⟩
  · obtain ⟨units, className, field, hobjects, rfl⟩ := hr hnew
    have hlt : id < e.heap.objects.size := (Array.getElem?_eq_some_iff.1 hget).1
    exact ⟨Heap.grows_set hget hname hobjects, (Heap.get?_set_push hlt hobjects id).trans (if_pos rfl)⟩

/-- All that writing an object does: it may add the name string of metadata, and writes the data of the object, which
gives out labels. -/
theorem value_spec (hr : r.MakesStrings) (hv : v ≠ .null) (h : value r e v = (e', none)) :
    ∃ id o, v = .object id ∧ e.heap.Grows e'.heap ∧ e'.heap.get? id = some o ∧
      (∀ m, o = .metadata m → m.nameString.isSome) ∧ (e'.heap.block r o).failure = none ∧
      e'.labels = (DataItem.lines e.labels (e'.heap.block r o).items).2 ∧
      e'.lines.toList = e.lines.toList ++ (DataItem.lines e.labels (e'.heap.block r o).items).1 := by
  unfold value at h
  split at h
  · exact absurd rfl hv
  · rename_i id
    split at h
    · rename_i m hget
      split at h
      · cases h
      · rename_i m' e₁ hname
        obtain ⟨hgrows, hself⟩ := ensureName_spec hr hget hname
        obtain ⟨hsome, hlabels, hlines⟩ := ensureName_keeps hname
        obtain ⟨rfl, hfailure⟩ := Prod.mk.inj h
        refine ⟨id, .metadata m', rfl, hgrows, hself, ?_, hfailure, ?_, ?_⟩
        · rintro _ ⟨⟩
          exact hsome
        · simp [hlabels]
        · simp [hlabels, hlines]
    · rename_i o hmetadata hget
      obtain ⟨rfl, hfailure⟩ := Prod.mk.inj h
      exact ⟨id, o, rfl, .refl, hget, fun m hm => absurd hm (hmetadata m), hfailure, rfl, by simp⟩
    · cases h
  · cases h
  · cases h

end Emission

end JvmAot
