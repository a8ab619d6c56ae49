import JvmAot.Proofs.Heap.Placement
import Mathlib.Data.List.Nodup
import Mathlib.Logic.Relation

/-! # The written form of objects

`Heap.Serializes` says which lines the data of an object is: of each kind of object the words, numbers and zeros in
order, with each reference as the text that names its target. An emission that succeeds has written these lines under
the label of each object, and a label for all that can be reached. -/

namespace JvmAot

/-! ### Lines -/

/-- One line of words that refer to some values. -/
def RefersTo (t : LabelTable) (values : List Value) (lines : List Line) : Prop :=
  ∃ texts, List.Forall₂ t.Names values texts ∧ lines = [.directive ".word" texts]

/-- Lines that are read as the given bytes, wherever they stand. -/
def ReadAs (bytes : List AssembledByte) (lines : List Line) : Prop :=
  ∀ position, assemble? position lines = some bytes

/-- The zeros from one offset to another one, if that comes later. Offsets are 64-bit numbers. -/
def gapLines (position target : Int) : List Line :=
  if position < target then [.directive ".zero" [toString (IntType.int.wrap (target - position))]] else []

/-- What an instance has at an offset. Of the fields that values are set for, the last one at the offset counts, and
where there is none, or none with a value, there is null. -/
inductive ObjectLayout.ValueAt (l : ObjectLayout) (values : List (String × Value)) (offset : Int) : Value → Prop
  | field {f : FieldSlot} {before after : List FieldSlot} (hnamed : l.named = before ++ f :: after)
      (hoffset : f.offset = offset) (hlast : ∀ g ∈ after, g.offset ≠ offset) :
      ValueAt l values offset ((values.lookup f.name).getD .null)
  | none (h : ∀ f ∈ l.named, f.offset ≠ offset) : ValueAt l values offset .null

/-- The lines of some fields of an instance and of the rest of it, from an offset on. A reference field is a word, and
any other field is a number of its size. -/
inductive ObjectLayout.FieldLines (l : ObjectLayout) (values : List (String × Value)) (t : LabelTable) :
    Int → List FieldSlot → List Line → Prop
  | done {position : Int} : FieldLines l values t position [] (gapLines position l.size)
  | reference {position : Int} {v : Value} {f : FieldSlot} {fields : List FieldSlot} {word rest : List Line}
      (htype : f.type.isReference) (hvalue : l.ValueAt values f.offset v) (hword : RefersTo t [v] word)
      (hrest : FieldLines l values t (IntType.int.wrap f.stop) fields rest) :
      FieldLines l values t position (f :: fields) (gapLines position f.offset ++ word ++ rest)
  | primitive {position n : Int} {v : Value} {f : FieldSlot} {fields : List FieldSlot} {number rest : List Line}
      (htype : ¬ f.type.isReference) (hvalue : l.ValueAt values f.offset v) (hn : v.number? = some n)
      (hnumber : ReadAs (numberData f.type.bytes n) number)
      (hrest : FieldLines l values t (IntType.int.wrap f.stop) fields rest) :
      FieldLines l values t position (f :: fields) (gapLines position f.offset ++ number ++ rest)

/-- The lines are the data of an object. Each kind of object but metadata starts with its vtable. -/
inductive Heap.Serializes (r : ObjectResolver) (h : Heap) (t : LabelTable) : Object → List Line → Prop
  | primitiveArray {element : BaseType} {values : List Int} {metadata : ObjectId}
      {vtable length elements padding : List Line}
      (hmetadata : r.arrayMetadata (Object.primitiveArrayType element) = .ok metadata)
      (hvtable : RefersTo t [h.vtable metadata] vtable) (hlength : ReadAs (numberData 4 values.length) length)
      (helements : ReadAs (values.flatMap (numberData element.bytes)) elements)
      (hpadding : ∀ position, assemble? position padding = some (zeroData (paddingTo 4 position))) :
      Serializes r h t (.primitiveArray element values) (vtable ++ length ++ elements ++ padding)
  | emptyArray {type : String} {metadata : ObjectId} {vtable length : List Line}
      (hmetadata : r.arrayMetadata type = .ok metadata) (hvtable : RefersTo t [h.vtable metadata] vtable)
      (hlength : ReadAs (numberData 4 0) length) : Serializes r h t (.objectArray type []) (vtable ++ length)
  | objectArray {type : String} {elements : List Value} {metadata : ObjectId} {vtable length words : List Line}
      (hmetadata : r.arrayMetadata type = .ok metadata) (hvtable : RefersTo t [h.vtable metadata] vtable)
      (hlength : ReadAs (numberData 4 elements.length) length) (hsome : elements ≠ [])
      (helements : RefersTo t elements words) :
      Serializes r h t (.objectArray type elements) (vtable ++ length ++ words)
  | ofClass {className : String} {values : List (String × Value)} {l : ObjectLayout} {fields : List FieldSlot}
      {vtable rest : List Line} (hlayout : r.classLayout className = .ok l)
      (hfields : fields.Perm (l.fields.filter (ObjectLayout.headerSize ≤ ·.offset)))
      (hsorted : fields.Pairwise (·.offset ≤ ·.offset)) (hvtable : RefersTo t [h.vtable l.metadata] vtable)
      (hrest : l.FieldLines values t ObjectLayout.headerSize fields rest) :
      Serializes r h t (.ofClass className values) (vtable ++ rest)
  | metadata {m : Metadata} {parent kind name vtable element : List Line}
      (hparent : RefersTo t [m.parent.elim .null .object] parent) (hkind : ReadAs (numberData 4 m.kind.number) kind)
      (hname : RefersTo t [m.nameString.elim .null .object] name)
      (hvtable : RefersTo t [m.vtable.elim .null .object] vtable)
      (helement : RefersTo t [m.element.elim .null .object] element) :
      Serializes r h t (.metadata m) (parent ++ kind ++ name ++ vtable ++ element)

/-! ### Items -/

namespace DataItem

variable {t : LabelTable}

theorem refersTo_text {values : List Value} (h : ∀ v ∈ values, (t.get v).2 = t) :
    RefersTo t values [text t (.references values)] := by
  refine ⟨_, ?_, rfl⟩
  rw [List.forall₂_map_right_iff, List.forall₂_same]
  exact fun v hv => LabelTable.names_get (h v hv)

theorem readAs_text {size : Nat} (hsize : size = 1 ∨ size = 2 ∨ size = 4 ∨ size = 8) (values : List Int) :
    ReadAs (values.flatMap (numberData size)) [text t (.numbers size values)] := by
  intro position
  have hdata : (text t (.numbers size values)).data? position = some (values.flatMap (numberData size)) :=
    data?_numbers hsize values
  simp only [assemble?, hdata, Option.map_some, List.append_nil]

theorem readAs_text_singleton {size : Nat} (hsize : size = 1 ∨ size = 2 ∨ size = 4 ∨ size = 8) (n : Int) :
    ReadAs (numberData size n) [text t (.numbers size [n])] := by
  have h := readAs_text (t := t) hsize [n]
  rwa [List.flatMap_singleton] at h

/-- Numbers of an array, which has no line for none. -/
theorem readAs_elements (element : BaseType) (values : List Int) :
    ReadAs (values.flatMap (numberData element.bytes))
      ((if values = [] then [] else [.numbers element.bytes values]).map (text t)) := by
  by_cases hnil : values = []
  · rw [if_pos hnil, hnil]
    exact fun position => rfl
  · rw [if_neg hnil]
    exact readAs_text (Heap.bytes_cases element) values

theorem assemble?_align (position : Nat) :
    assemble? position [text t (.align 4)] = some (zeroData (paddingTo 4 position)) := by
  have hregular : (DataItem.align 4).IsRegular := trivial
  have hdata := data?_line (t := t) hregular .refl position
  simp only [text, assemble?, hdata, Option.map_some, List.append_nil]
  rfl

theorem map_text_gap (position target : Int) : (Heap.gap position target).map (text t) = gapLines position target := by
  unfold Heap.gap gapLines
  split <;> rfl

end DataItem

/-! ### Blocks -/

theorem ObjectLayout.valueAt_valueAt (l : ObjectLayout) (values : List (String × Value)) (offset : Int) :
    l.ValueAt values offset (l.valueAt values offset) := by
  unfold valueAt
  split
  · rename_i f hfind
    obtain ⟨hoffset, after, before, hnamed, hafter⟩ := List.find?_eq_some_iff_append.1 hfind
    have hsplit : l.named = before.reverse ++ f :: after.reverse := by simpa using congrArg List.reverse hnamed
    refine .field hsplit (by simpa using hoffset) fun g hg => ?_
    simpa using hafter g (List.mem_reverse.1 hg)
  · rename_i hfind
    refine .none fun f hf => ?_
    simpa using List.find?_eq_none.1 hfind f (List.mem_reverse.2 hf)

namespace Heap

variable {r : ObjectResolver} {h : Heap} {t : LabelTable} {o : Object}

theorem fieldLines_fieldData {l : ObjectLayout} {className : String} {values : List (String × Value)} {position : Int}
    {fields : List FieldSlot} (hfailure : (h.fieldData l className values position fields).failure = none)
    (hlabels : ∀ v ∈ (h.fieldData l className values position fields).values, (t.get v).2 = t) :
    l.FieldLines values t position fields
      ((h.fieldData l className values position fields).items.map (DataItem.text t)) := by
  induction fields generalizing position with
  | nil =>
    rw [fieldData, DataItem.map_text_gap]
    exact .done
  | cons f fields ih =>
    simp only [fieldData] at hfailure hlabels ⊢
    split at hfailure
    · rename_i htype
      rw [if_pos htype, values_prepend, List.flatMap_append, values_gap] at hlabels
      rw [if_pos htype, Block.prepend, List.map_append, List.map_append, DataItem.map_text_gap]
      refine .reference htype (l.valueAt_valueAt values f.offset) (DataItem.refersTo_text fun v hv => hlabels v ?_)
        (ih hfailure fun v hv => hlabels v ?_)
      · exact List.mem_append_left _ (by simpa [DataItem.values] using hv)
      · exact List.mem_append_right _ hv
    · rename_i htype
      rw [if_neg htype] at hlabels ⊢
      split at hfailure
      · rename_i n hn
        rw [hn, values_prepend] at hlabels
        rw [Block.prepend, List.map_append, List.map_append, DataItem.map_text_gap]
        refine .primitive htype (l.valueAt_valueAt values f.offset) hn
          (DataItem.readAs_text_singleton f.type.bytes_cases n) (ih hfailure fun v hv => ?_)
        exact hlabels v (List.mem_append_right _ hv)
      · cases hfailure

/-- The items of an object in assembly text are its data. -/
theorem serializes_block (hfailure : (h.block r o).failure = none)
    (hlabels : ∀ v ∈ (h.block r o).values, (t.get v).2 = t) :
    h.Serializes r t o ((h.block r o).items.map (DataItem.text t)) := by
  have hword {v : Value} (hv : .references [v] ∈ (h.block r o).items) :
      RefersTo t [v] [DataItem.text t (.references [v])] := by
    refine DataItem.refersTo_text fun w hw => hlabels w ?_
    exact List.mem_flatMap.2 ⟨_, hv, hw⟩
  cases o with
  | primitiveArray element values =>
    simp only [block] at hfailure hword ⊢
    split at hfailure
    · cases hfailure
    · rename_i metadata hmetadata
      simp only [hmetadata, List.map_append] at hword ⊢
      exact .primitiveArray hmetadata (hword (by simp)) (DataItem.readAs_text_singleton (by simp) _)
        (DataItem.readAs_elements element values) DataItem.assemble?_align
  | objectArray type elements =>
    simp only [block] at hfailure hlabels hword ⊢
    split at hfailure
    · cases hfailure
    · rename_i metadata hmetadata
      simp only [hmetadata] at hlabels hword ⊢
      by_cases hnil : elements = []
      · subst hnil
        exact .emptyArray hmetadata (hword (by simp)) (DataItem.readAs_text_singleton (by simp) _)
      · simp only [if_neg hnil] at hlabels hword ⊢
        refine .objectArray hmetadata (hword (by simp)) (DataItem.readAs_text_singleton (by simp) _) hnil
          (DataItem.refersTo_text fun v hv => hlabels v ?_)
        simp [Block.values, DataItem.values, hv]
  | ofClass className values =>
    cases hlayout : r.classLayout className with
    | error failure =>
      rw [block, hlayout] at hfailure
      cases hfailure
    | ok l =>
      obtain ⟨hnone, hitems⟩ := block_ofClass hlayout hfailure
      rw [Block.values, hitems] at hlabels
      rw [hitems] at hword ⊢
      refine .ofClass hlayout (List.mergeSort_perm _ _) l.sorted_ordered (hword (List.mem_cons_self ..))
        (fieldLines_fieldData hnone fun v hv => hlabels v ?_)
      exact List.mem_append_right _ hv
  | metadata m =>
    have hreference (id : Option ObjectId) : reference id = .references [id.elim .null .object] := by cases id <;> rfl
    simp only [block, metadataData, hreference] at hword ⊢
    exact .metadata (hword (by simp)) (DataItem.readAs_text_singleton (by simp) _) (hword (by simp)) (hword (by simp))
      (hword (by simp))

end Heap

/-! ### Emissions -/

namespace Emission

variable {r : ObjectResolver} {e : Emission} {id : ObjectId}

theorem Written.text_of_items {o : Object} (h : e.Written r id o) :
    e.text r id = (e.heap.block r o).items.map (DataItem.text e.labels) := by
  have hsame : (DataItem.lines e.labels (e.heap.block r o).items).2.Extends e.labels := by
    rw [h.labels]
    exact .refl
  rw [h.text_eq, DataItem.lines_eq_text hsame]

theorem Written.serializes {o : Object} (h : e.Written r id o) : e.heap.Serializes r e.labels o (e.text r id) := by
  rw [h.text_of_items]
  refine Heap.serializes_block h.failure fun v hv => DataItem.get_of_mem_lines (t := e.labels) hv ?_
  rw [h.labels]
  exact .refl

/-- Whatever the objects are and however they refer to each other, with a table of any labels that were given out:
writing ends. If it succeeds, objects have only gained name strings and labels stay what they were. The label lines are
those of the final table, once and in order, and after each come the lines that the data of its object is with the final
heap. No object has two labels and no label is that of two objects, so that a word that refers to an object is the label
under which this object is written. All that can be reached from an object with a label has a label. -/
theorem all_writes_graph (hr : r.MakesStrings) (values : List Value)
    (hlabels : e.labels = (({} : LabelTable).getAll values).2) (hlines : e.lines = #[]) :
    (∀ result, Emits r 0 e result ↔ result = all r e) ∧
      ∀ e', all r e = (e', none) → e.heap.Grows e'.heap ∧ e.labels.Extends e'.labels ∧
        ∃ (ids : List ObjectId) (texts : List (List Line)),
          e'.labels.order.toList = ids.map .object ∧ ids.Nodup ∧
          (∀ m n, LabelTable.label m = LabelTable.label n → m = n) ∧
          definitions e'.lines.toList = (List.range ids.length).map LabelTable.label ∧
          e'.lines.toList = (texts.zipIdx.flatMap fun (text, n) => .label (LabelTable.label n) :: text) ∧
          List.Forall₂ (fun id text => ∃ o, e'.heap.get? id = some o ∧ (∀ m, o = .metadata m → m.nameString.isSome) ∧
            e'.heap.Serializes r e'.labels o text) ids texts ∧
          ∀ i ∈ ids, ∀ j, Relation.ReflTransGen (e'.heap.Edge r) i j → j ∈ ids := by
  have hproper : e.labels.Proper := hlabels ▸ LabelTable.Proper.empty.getAll values
  refine ⟨fun result => emits_iff hr hproper, fun e' hall => ?_⟩
  obtain ⟨ids, horder, hheap, hextends, hwritten, htext⟩ := run_spec hr hproper (Nat.zero_le _) hall
  rw [List.drop_zero] at horder
  obtain ⟨lines, hnew, hdefs, -⟩ := (adds_all (P := fun _ => True) hr hall).lines fun _ _ _ _ _ => trivial
  simp only [hlines, List.nil_append] at htext hnew
  refine ⟨hheap, hextends, ids, ids.map (e'.text r), horder, ?_, fun _ _ => LabelTable.label_inj, ?_, ?_, ?_, ?_⟩
  · have hproper' : (all r e).1.labels.Proper := proper_run hproper _ _
    have hnodup := hproper'.nodup
    rw [hall, horder] at hnodup
    exact List.Nodup.of_map _ hnodup
  · have hsize : e'.labels.size = ids.length := by
      have hlength := congrArg List.length horder
      simpa [LabelTable.size] using hlength
    rw [hnew, hdefs, hsize]
  · rw [htext, List.zipIdx_map, List.flatMap_map]
    rfl
  · rw [List.forall₂_map_right_iff, List.forall₂_same]
    intro id hid
    obtain ⟨o, ho⟩ := hwritten id hid
    exact ⟨o, ho.get?, ho.named, ho.serializes⟩
  · intro i hi j hreach
    induction hreach with
    | refl => exact hi
    | tail _ hedge ih =>
      obtain ⟨o, ho⟩ := hwritten _ ih
      exact ho.mem_of_edge horder hedge

/-! ### Nodes -/

/-- If an instance has the first label, it is written first. -/
theorem all_of_first {className : String} {values : List (String × Value)} {b : Block}
    (hfirst : e.labels.order[0]? = some (.object id)) (hget : e.heap.get? id = some (.ofClass className values))
    (hblock : e.heap.block r (.ofClass className values) = b) (hfailure : b.failure = none) :
    all r e = run r e.bound 1 ({ e with lines := e.lines.push (.label (LabelTable.label 0)) }.write b).1 := by
  subst hblock
  rw [all, run, hfirst]
  simp only [value, hget, write, hfailure]

/-- Strings are instances of a class with one field for their characters. -/
def newText (text : String) (h : Heap) : Except Failure (ObjectId × Heap) :=
  let (characters, h) := h.allocate (.characters (Utf16.encode text))
  .ok (h.allocate (.ofClass "Text" [("value", .object characters)]))

/-- A reference field. -/
def slot (name : String) (offset : Int) : FieldSlot :=
  { name, offset, type := { base := .reference, className := "Node" } }

/-- Nodes with two fields at the given offsets. All objects have the metadata at place 1. -/
def nodes (left right : Int) : ObjectResolver where
  arrayMetadata _ := .ok 1
  classLayout
    | "Node" => .ok { metadata := 1, size := 12, fields := [slot "left" left, slot "right" right] }
    | "Text" => .ok { metadata := 1, size := 8, fields := [slot "value" 4] }
    | name => .error (Cause.classNotFound name : Failure)
  newString := newText

theorem ordered_nodes {left right : Int} (hleft : 4 ≤ left) (hright : left ≤ right) :
    ObjectLayout.ordered { metadata := 1, size := 12, fields := [slot "left" left, slot "right" right] } =
      [slot "left" left, slot "right" right] := by
  have hle : 4 ≤ right := Int.le_trans hleft hright
  simp [ObjectLayout.ordered, slot, ObjectLayout.headerSize, List.mergeSort, hleft, hright, hle]

theorem makesStrings_nodes (left right : Int) : (nodes left right).MakesStrings := by
  intro text h id h' heq
  obtain ⟨rfl, rfl⟩ := Prod.mk.inj (Except.ok.inj heq)
  exact ⟨Utf16.encode text, "Text", "value", rfl, by simp⟩

/-- A node that refers to itself and to an array that refers back to it. -/
def ring : Emission where
  heap := ⟨#[.objectArray Heap.vtableType [.object 1, .symbol "Node_next__V"],
    .metadata { kind := .classType, name := "Node", vtable := some 0 },
    .ofClass "Node" [("left", .object 2), ("right", .object 3)],
    .objectArray "[LNode;" [.object 2, .null]]⟩
  labels := (({} : LabelTable).getAll [.object 2]).2

theorem all_ring : all (nodes 4 8) ring = run (nodes 4 8) ring.bound 1
    ({ ring with lines := ring.lines.push (.label (LabelTable.label 0)) }.write
      { items := [.references [.object 0], .references [.object 2], .references [.object 3]] }).1 := by
  have hlabel : ring.labels.order[0]? = some (.object 2) := by decide +kernel
  refine all_of_first hlabel rfl ?_ rfl
  simp only [Heap.block, nodes, ordered_nodes (Int.le_refl 4) (show (4 : Int) ≤ 8 by decide)]
  decide +kernel

theorem ring_written :
    (all (nodes 4 8) ring).2 = none ∧
      definitions ((all (nodes 4 8) ring).1.lines.toList.take 4) = ["object0"] ∧
      assemble? 0 ((all (nodes 4 8) ring).1.lines.toList.take 4) =
        some (["object1", "object0", "object2"].flatMap (addressData 4)) ∧
      ∃ (ids : List ObjectId) (texts : List (List Line)), ids = [2, 0, 3, 1, 5, 4] ∧ ids.length = texts.length ∧
        (all (nodes 4 8) ring).1.lines.toList =
          (texts.zipIdx.flatMap fun (text, n) => .label (LabelTable.label n) :: text) ∧
        ∀ i ∈ ids, ∀ j, Relation.ReflTransGen ((all (nodes 4 8) ring).1.heap.Edge (nodes 4 8)) i j → j ∈ ids := by
  obtain ⟨hnone, hids, hlabel, hwords⟩ : (all (nodes 4 8) ring).2 = none ∧
      (all (nodes 4 8) ring).1.labels.order.toList = [2, 0, 3, 1, 5, 4].map .object ∧
      definitions ((all (nodes 4 8) ring).1.lines.toList.take 4) = ["object0"] ∧
      assemble? 0 ((all (nodes 4 8) ring).1.lines.toList.take 4) =
        some (["object1", "object0", "object2"].flatMap (addressData 4)) := by
    rw [all_ring]
    decide +kernel
  obtain ⟨-, -, ids, texts, horder, -, -, -, hlines, hwritten, hreach⟩ :=
    (all_writes_graph (e := ring) (makesStrings_nodes 4 8) [.object 2] rfl rfl).2 _ (Prod.ext rfl hnone)
  refine ⟨hnone, hlabel, hwords, ids, texts, ?_, hwritten.length_eq, hlines, hreach⟩
  exact List.map_injective_iff.2 (fun _ _ => Value.object.inj) (horder.symm.trans hids)

/-- A node with an array in its first field. -/
def branch : Emission where
  heap := ⟨#[.objectArray Heap.vtableType [.object 1],
    .metadata { kind := .classType, name := "Node", vtable := some 0 },
    .ofClass "Node" [("left", .object 3)], .objectArray "[LNode;" []]⟩
  labels := (({} : LabelTable).getAll [.object 2]).2

theorem all_branch : all (nodes 4 4) branch = run (nodes 4 4) branch.bound 1
    ({ branch with lines := branch.lines.push (.label (LabelTable.label 0)) }.write
      { items := [.references [.object 0], .references [.null], .references [.null], .zeros 4] }).1 := by
  have hlabel : branch.labels.order[0]? = some (.object 2) := by decide +kernel
  refine all_of_first hlabel rfl ?_ rfl
  simp only [Heap.block, nodes, ordered_nodes (Int.le_refl 4) (Int.le_refl 4)]
  decide +kernel

/-- With both fields of a node at one offset, the object in the first one is not written. -/
theorem branch_loses_array :
    (nodes 4 4).MakesStrings ∧ branch.heap.get? 2 = some (.ofClass "Node" [("left", .object 3)]) ∧
      (∃ l f, (nodes 4 4).classLayout "Node" = .ok l ∧ f ∈ l.fields ∧ f.name = "left" ∧ f.type.isReference ∧
        ObjectLayout.headerSize ≤ f.offset) ∧
      (all (nodes 4 4) branch).2 = none ∧ .object 3 ∉ (all (nodes 4 4) branch).1.labels.order.toList := by
  obtain ⟨hnone, horder⟩ : (all (nodes 4 4) branch).2 = none ∧
      (all (nodes 4 4) branch).1.labels.order.toList = [2, 0, 1, 5, 4].map .object := by
    rw [all_branch]
    decide +kernel
  refine ⟨makesStrings_nodes 4 4, rfl, ?_, hnone, ?_⟩
  · exact ⟨_, slot "left" 4, rfl, List.mem_cons_self .., rfl, rfl, by decide⟩
  · rw [horder]
    decide

end Emission

end JvmAot
