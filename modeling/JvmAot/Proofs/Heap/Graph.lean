import JvmAot.Proofs.Heap.Termination

/-! # The object graph is written as a whole

An object that was written stays written as it is (`Emission.Written.mono`), so the text of an emission that succeeds
is the text of each labelled object, in the order of the labels, with the final heap and the final labels
(`Emission.run_spec`). What the data of an object refers to has a label then, and so has all that can be reached
(`Written.mem_of_edge`). -/

namespace JvmAot

/-! ### References between objects -/

/-- One object refers to another one. Of the fields that values are set for, the last one at an offset counts. -/
inductive Heap.Edge (r : ObjectResolver) (h : Heap) : ObjectId → ObjectId → Prop
  | element {i j : ObjectId} {type : String} {elements : List Value} (hget : h.get? i = some (.objectArray type elements))
      (hmem : .object j ∈ elements) : Edge r h i j
  | field {i j : ObjectId} {className : String} {values : List (String × Value)} {l : ObjectLayout}
      {before after : List FieldSlot} {f : FieldSlot} (hget : h.get? i = some (.ofClass className values))
      (hlayout : r.classLayout className = .ok l) (hnamed : l.named = before ++ f :: after)
      (hlast : ∀ g ∈ after, g.offset ≠ f.offset) (hoffset : ObjectLayout.headerSize ≤ f.offset)
      (htype : f.type.isReference) (hvalue : values.lookup f.name = some (.object j)) : Edge r h i j
  | primitiveVtable {i j metadata : ObjectId} {element : BaseType} {values : List Int}
      (hget : h.get? i = some (.primitiveArray element values))
      (hmetadata : r.arrayMetadata (Object.primitiveArrayType element) = .ok metadata)
      (hvtable : h.vtable metadata = .object j) : Edge r h i j
  | arrayVtable {i j metadata : ObjectId} {type : String} {elements : List Value}
      (hget : h.get? i = some (.objectArray type elements)) (hmetadata : r.arrayMetadata type = .ok metadata)
      (hvtable : h.vtable metadata = .object j) : Edge r h i j
  | classVtable {i j : ObjectId} {className : String} {values : List (String × Value)} {l : ObjectLayout}
      (hget : h.get? i = some (.ofClass className values)) (hlayout : r.classLayout className = .ok l)
      (hvtable : h.vtable l.metadata = .object j) : Edge r h i j
  | parent {i j : ObjectId} {m : Metadata} (hget : h.get? i = some (.metadata m)) (hj : m.parent = some j) : Edge r h i j
  | vtable {i j : ObjectId} {m : Metadata} (hget : h.get? i = some (.metadata m)) (hj : m.vtable = some j) : Edge r h i j
  | elementType {i j : ObjectId} {m : Metadata} (hget : h.get? i = some (.metadata m)) (hj : m.element = some j) :
      Edge r h i j
  | name {i j : ObjectId} {m : Metadata} (hget : h.get? i = some (.metadata m)) (hj : m.nameString = some j) : Edge r h i j

namespace ObjectLayout

variable {l : ObjectLayout} {f : FieldSlot} {before after : List FieldSlot}

theorem mem_of_mem_visible {seen : List String} {fields : List FieldSlot} (h : f ∈ visible seen fields) : f ∈ fields := by
  induction fields generalizing seen with
  | nil => cases h
  | cons g rest ih =>
    rw [visible] at h
    split at h
    · exact List.mem_cons_of_mem _ (ih h)
    · rcases List.mem_cons.1 h with rfl | h
      · exact List.mem_cons_self ..
      · exact List.mem_cons_of_mem _ (ih h)

theorem mem_ordered (hf : f ∈ l.fields) (hoffset : headerSize ≤ f.offset) : f ∈ l.ordered := by
  rw [ordered, List.mem_mergeSort, List.mem_filter]
  exact ⟨hf, by simpa using hoffset⟩

/-- The value of the last field at an offset is the one that counts. -/
theorem valueAt_eq (hnamed : l.named = before ++ f :: after) (hlast : ∀ g ∈ after, g.offset ≠ f.offset)
    (values : List (String × Value)) : l.valueAt values f.offset = (values.lookup f.name).getD .null := by
  have hfind : l.named.reverse.find? (·.offset = f.offset) = some f := by
    rw [hnamed, List.reverse_append, List.reverse_cons, List.append_assoc, List.find?_append,
      List.find?_eq_none.2 fun g hg => by simpa using hlast g (List.mem_reverse.1 hg)]
    simp
  rw [valueAt, hfind]

end ObjectLayout

namespace Heap

variable {h : Heap} {r : ObjectResolver} {i j : ObjectId} {o : Object}

theorem valueAt_mem_fieldData {l : ObjectLayout} {className : String} {values : List (String × Value)} {position : Int}
    {fields : List FieldSlot} {f : FieldSlot} (hf : f ∈ fields) (htype : f.type.isReference)
    (hfailure : (h.fieldData l className values position fields).failure = none) :
    l.valueAt values f.offset ∈ (h.fieldData l className values position fields).values := by
  induction fields generalizing position with
  | nil => cases hf
  | cons g rest ih =>
    simp only [fieldData] at hfailure ⊢
    rcases List.mem_cons.1 hf with rfl | hf
    · rw [if_pos htype, values_prepend, List.flatMap_append, values_gap, List.nil_append]
      exact List.mem_append_left _ (List.mem_singleton.2 rfl)
    · split
      · rename_i hreference
        rw [if_pos hreference] at hfailure
        rw [values_prepend]
        exact List.mem_append_right _ (ih hf hfailure)
      · rename_i hprimitive
        rw [if_neg hprimitive] at hfailure
        split at hfailure
        · rw [values_prepend]
          exact List.mem_append_right _ (ih hf hfailure)
        · cases hfailure

/-- The data of an object refers to all that the object refers to. -/
theorem Edge.mem_values (hedge : h.Edge r i j) (hget : h.get? i = some o) (hfailure : (h.block r o).failure = none) :
    .object j ∈ (h.block r o).values := by
  have hsome {o' : Object} (hget' : h.get? i = some o') : o = o' := Option.some.inj (hget.symm.trans hget')
  have href {m : Metadata} {id : Option ObjectId} (hid : id = some j)
      (hmem : reference id ∈ metadataData m) : .object j ∈ (h.block r (.metadata m)).values := by
    refine List.mem_flatMap.2 ⟨reference id, hmem, ?_⟩
    rw [hid]
    exact List.mem_singleton.2 rfl
  cases hedge with
  | @element type elements hget' hmem =>
    obtain rfl := hsome hget'
    have hne : elements ≠ [] := List.ne_nil_of_mem hmem
    simp only [block] at hfailure ⊢
    split
    · rename_i heq
      rw [heq] at hfailure
      cases hfailure
    · simp [Block.values, DataItem.values, hne, hmem]
  | @field className values l before after f hget' hlayout hnamed hlast hoffset htype hvalue =>
    obtain rfl := hsome hget'
    have hf : f ∈ l.fields := by
      have hmem : f ∈ l.named := by simp [hnamed]
      exact ObjectLayout.mem_of_mem_visible hmem
    have heq := ObjectLayout.valueAt_eq hnamed hlast values
    rw [hvalue] at heq
    simp only [block, hlayout] at hfailure ⊢
    split at hfailure
    · cases hfailure
    · have hmem := valueAt_mem_fieldData (ObjectLayout.mem_ordered hf hoffset) htype hfailure
      rw [heq] at hmem
      rw [values_prepend]
      exact List.mem_append_right _ hmem
  | @primitiveVtable metadata element values hget' hmetadata hvtable =>
    obtain rfl := hsome hget'
    simp [block, hmetadata, Block.values, DataItem.values, hvtable]
  | @arrayVtable metadata type elements hget' hmetadata hvtable =>
    obtain rfl := hsome hget'
    simp [block, hmetadata, Block.values, DataItem.values, hvtable]
  | @classVtable className values l hget' hlayout hvtable =>
    obtain rfl := hsome hget'
    simp only [block, hlayout] at hfailure ⊢
    split at hfailure
    · cases hfailure
    · rw [values_prepend, hvtable]
      exact List.mem_append_left _ (List.mem_singleton.2 rfl)
  | parent hget' hj | vtable hget' hj | elementType hget' hj | name hget' hj =>
    obtain rfl := hsome hget'
    exact href hj (by simp [metadataData])

end Heap

/-! ### Texts of objects -/

namespace Emission

variable {r : ObjectResolver} {e e' : Emission} {v : Value} {id : ObjectId} {next : Nat}

/-- The text of an object with the heap and the labels of an emission. -/
def text (r : ObjectResolver) (e : Emission) (id : ObjectId) : List Line :=
  match e.heap.get? id with
  | some o => (DataItem.lines e.labels (e.heap.block r o).items).1
  | none => []

/-- An object can be written without failure and without new labels, and has a name string if it is metadata. -/
structure Written (r : ObjectResolver) (e : Emission) (id : ObjectId) (o : Object) : Prop where
  get? : e.heap.get? id = some o
  named : ∀ m, o = .metadata m → m.nameString.isSome
  failure : (e.heap.block r o).failure = none
  labels : (DataItem.lines e.labels (e.heap.block r o).items).2 = e.labels

theorem Written.text_eq {o : Object} (h : e.Written r id o) :
    e.text r id = (DataItem.lines e.labels (e.heap.block r o).items).1 := by
  rw [text, h.get?]

/-- What was written stays as it is. -/
theorem Written.mono {o : Object} (h : e.Written r id o) (hheap : e.heap.Grows e'.heap)
    (hlabels : e.labels.Extends e'.labels) : e'.Written r id o ∧ e'.text r id = e.text r id := by
  obtain ⟨hitems, hfailure⟩ := hheap.block r o
  have hlines : DataItem.lines e'.labels (e.heap.block r o).items = (_, e'.labels) :=
    DataItem.lines_of_extends (t := e.labels) _ (h.labels.symm ▸ hlabels)
  have hwritten : e'.Written r id o := by
    refine ⟨hheap.get? h.get? h.named, h.named, hfailure.2 h.failure, ?_⟩
    rw [hitems, hlines]
  refine ⟨hwritten, ?_⟩
  rw [hwritten.text_eq, h.text_eq, hitems, hlines]

/-- Writing an object makes it written. -/
theorem written_value (hr : r.MakesStrings) (hv : v ≠ .null) (h : value r e v = (e', none)) :
    ∃ id o, v = .object id ∧ e'.Written r id o ∧ e.heap.Grows e'.heap ∧ e.labels.Extends e'.labels ∧
      e'.lines.toList = e.lines.toList ++ e'.text r id := by
  obtain ⟨id, o, rfl, hheap, hget, hnamed, hfailure, hlabels, hlines⟩ := value_spec hr hv h
  have hsame : DataItem.lines e'.labels (e'.heap.block r o).items = (_, e'.labels) :=
    DataItem.lines_of_extends (t := e.labels) _ (hlabels ▸ .refl)
  have hwritten : e'.Written r id o := ⟨hget, hnamed, hfailure, by rw [hsame]⟩
  refine ⟨id, o, rfl, hwritten, hheap, ?_, ?_⟩
  · rw [hlabels]
    exact DataItem.extends_lines ..
  · rw [hlines, hwritten.text_eq, hsame]

theorem proper_write (h : e.labels.Proper) (b : Block) : (e.write b).1.labels.Proper :=
  DataItem.proper_lines h b.items

/-- Labels stay proper, whether a value is written or not. -/
theorem proper_value (h : e.labels.Proper) (v : Value) : (value r e v).1.labels.Proper := by
  unfold value
  split
  · exact proper_write h _
  · split
    · split
      · exact h
      · rename_i hname
        obtain ⟨-, hlabels, -⟩ := ensureName_keeps hname
        exact proper_write (hlabels ▸ h) _
    · exact proper_write h _
    · exact h
  · exact h
  · exact h

theorem proper_run (h : e.labels.Proper) (fuel next : Nat) : (run r fuel next e).1.labels.Proper := by
  induction fuel generalizing next e with
  | zero => exact h
  | succ fuel ih =>
    rw [run]
    split
    · exact h
    · rename_i v _
      have hvalue := proper_value (r := r) (e := { e with lines := e.lines.push (.label (LabelTable.label next)) }) h v
      split
      · rename_i heq
        rwa [heq] at hvalue
      · rename_i heq
        rw [heq] at hvalue
        exact ih hvalue _

/-- The text of an emission is that of the objects with labels from number `next` on, in order. -/
theorem run_spec {fuel : Nat} (hr : r.MakesStrings) (hproper : e.labels.Proper) (hnext : next ≤ e.labels.size)
    (h : run r fuel next e = (e', none)) :
    ∃ ids : List ObjectId, e'.labels.order.toList.drop next = ids.map .object ∧ e.heap.Grows e'.heap ∧
      e.labels.Extends e'.labels ∧ (∀ id ∈ ids, ∃ o, e'.Written r id o) ∧
      e'.lines.toList =
        e.lines.toList ++ (ids.zipIdx next).flatMap fun (id, n) => .label (LabelTable.label n) :: e'.text r id := by
  induction fuel generalizing next e with
  | zero => cases h
  | succ fuel ih =>
    rw [run] at h
    split at h
    · rename_i hnone
      obtain rfl : e = e' := congrArg Prod.fst h
      have hsize : e.labels.order.toList.length ≤ next := by simpa using hnone
      exact ⟨[], List.drop_eq_nil_of_le hsize, .refl, .refl, by simp, by simp⟩
    · rename_i v hsome
      split at h
      · cases h
      rename_i e₁ hvalue
      have hlt : next < e.labels.size := (Array.getElem?_eq_some_iff.1 hsome).1
      rw [← Array.getElem?_toList] at hsome
      have hv := (hproper.labelled v (List.mem_of_getElem? hsome)).1
      obtain ⟨id, o, rfl, hwritten, hheap, hlabels, hlines⟩ := written_value hr hv hvalue
      have hproper₁ := proper_value (r := r) (e := { e with lines := e.lines.push (.label (LabelTable.label next)) })
        hproper (.object id)
      rw [hvalue] at hproper₁
      obtain ⟨ids, horder, hheap', hlabels', hall, hlines'⟩ :=
        ih hproper₁ (Nat.le_trans hlt hlabels.size_le) h
      obtain ⟨hwritten', htext⟩ := hwritten.mono hheap' hlabels'
      refine ⟨id :: ids, ?_, hheap.trans hheap', hlabels.trans hlabels',
        List.forall_mem_cons.2 ⟨⟨o, hwritten'⟩, hall⟩, ?_⟩
      · -- The object was the next one when it was written, and still is.
        have hget : e'.labels.order.toList[next]? = some (.object id) := by
          obtain ⟨more, hmore⟩ := hlabels.trans hlabels'
          rw [← hmore, List.getElem?_append_left (by simpa [LabelTable.size] using hlt)]
          exact hsome
        obtain ⟨hlt', hget'⟩ := List.getElem?_eq_some_iff.1 hget
        rw [List.drop_eq_getElem_cons hlt', hget', horder, List.map_cons]
      · rw [hlines', hlines, List.zipIdx_cons, List.flatMap_cons, ← htext]
        simp

/-- A reference in data that was written is null, a symbol, or an object with a label. -/
theorem Written.reference {o : Object} {ids : List ObjectId} (h : e.Written r id o)
    (horder : e.labels.order.toList = ids.map .object) (hv : v ∈ (e.heap.block r o).values) :
    v = .null ∨ (∃ x, v = .symbol x) ∨
      ∃ n j, v = .object j ∧ ids[n]? = some j ∧ e.labels.get v = (LabelTable.label n, e.labels) := by
  have hstays : (e.labels.get v).2 = e.labels := by
    refine DataItem.get_of_mem_lines (t := e.labels) hv ?_
    rw [h.labels]
    exact .refl
  have hnames := LabelTable.names_get hstays
  generalize htext : (e.labels.get v).1 = text at hnames
  cases hnames with
  | null => exact .inl rfl
  | symbol => exact .inr (.inl ⟨_, rfl⟩)
  | @object _ n hn =>
    rw [horder, List.getElem?_map] at hn
    obtain ⟨j, hj, rfl⟩ := Option.map_eq_some_iff.1 hn
    exact .inr (.inr ⟨n, j, rfl, hj, Prod.ext htext hstays⟩)

/-- What a written object refers to has a label. -/
theorem Written.mem_of_edge {o : Object} {j : ObjectId} {ids : List ObjectId} (h : e.Written r id o)
    (horder : e.labels.order.toList = ids.map .object) (hedge : e.heap.Edge r id j) : j ∈ ids := by
  rcases h.reference horder (hedge.mem_values h.get? h.failure) with hnull | ⟨x, hsymbol⟩ | ⟨n, k, hk, hn, -⟩
  · cases hnull
  · cases hsymbol
  · cases hk
    exact List.mem_of_getElem? hn

end Emission

end JvmAot
