import JvmAot.Proofs.Heap.Serialization

/-! # Labels of objects are aligned

All objects take a whole number of words, so in a text that starts at a multiple of four bytes each label is at one
(`LabelsAligned`). `Emission.objects_fill_layouts` says where the text of objects puts their data. -/

namespace JvmAot

/-! ### Labels -/

/-- In a text that starts at a position, every label is at a multiple of four. -/
def LabelsAligned (start : Nat) (lines : List Line) : Prop :=
  ∀ before name after, lines = before ++ .label name :: after →
    ∃ bytes, assemble? start before = some bytes ∧ 4 ∣ start + bytes.length

namespace LabelsAligned

variable {start : Nat} {lines more : List Line} {name : String}

theorem nil : LabelsAligned start [] := by
  intro before name after h
  simp at h

/-- A label with lines behind it that define none. -/
theorem single (hstart : 4 ∣ start) (hlines : ∀ name, .label name ∉ lines) :
    LabelsAligned start (.label name :: lines) := by
  intro before other after h
  cases before with
  | nil => exact ⟨[], rfl, hstart⟩
  | cons line before =>
    obtain ⟨-, hrest⟩ := List.cons.inj h
    exact absurd (hrest ▸ List.mem_append_right _ (List.mem_cons_self ..)) (hlines other)

/-- A label with the data of an object, and what follows it. -/
theorem cons {bytes : List AssembledByte} (hstart : 4 ∣ start) (hlines : ∀ name, .label name ∉ lines)
    (hbytes : assemble? start lines = some bytes) (hmore : LabelsAligned (start + bytes.length) more) :
    LabelsAligned start (.label name :: lines ++ more) := by
  intro before other after h
  cases before with
  | nil => exact ⟨[], rfl, hstart⟩
  | cons line before =>
    obtain ⟨rfl, hrest⟩ := List.cons.inj h
    -- the other label is not among the lines of data, so it comes behind them
    obtain ⟨later, rfl, hlater⟩ : ∃ later, before = lines ++ later ∧ more = later ++ .label other :: after := by
      rcases List.append_eq_append_iff.1 hrest with hlater | ⟨later, hlines', hmore'⟩
      · exact hlater
      · cases later with
        | nil => exact ⟨[], by simpa using hlines'.symm, hmore'.symm⟩
        | cons first later =>
          obtain ⟨rfl, -⟩ := List.cons.inj hmore'
          exact absurd (hlines' ▸ List.mem_append_right _ (List.mem_cons_self ..)) (hlines other)
    obtain ⟨bytes', hbytes', hdvd⟩ := hmore later other after hlater
    refine ⟨bytes ++ bytes', ?_, by rwa [List.length_append, ← Nat.add_assoc]⟩
    rw [assemble?, Line.data?]
    simp only [List.length_nil, Nat.add_zero, assemble?_append hbytes hbytes', Option.map_some, List.nil_append]

end LabelsAligned

/-! ### Emission -/

namespace Emission

variable {r : ObjectResolver} {e e' : Emission} {v : Value} {failure : Option Failure}

theorem label_not_mem_lines (t : LabelTable) (items : List DataItem) (name : String) :
    .label name ∉ (DataItem.lines t items).1 := by
  intro hmem
  have hnone := (DataItem.lines_spec (P := fun _ => True) items (fun _ _ => trivial) t).2.1
  have hdefined : name ∈ definitions (DataItem.lines t items).1 := List.mem_filterMap.2 ⟨_, hmem, rfl⟩
  rw [hnone] at hdefined
  cases hdefined

/-- What writing an object adds: lines of data, and whole words of them unless it fails. -/
def AddsData (e e' : Emission) (failure : Option Failure) : Prop :=
  ∃ items, e'.labels = (DataItem.lines e.labels items).2 ∧
    e'.lines.toList = e.lines.toList ++ (DataItem.lines e.labels items).1 ∧ (failure = none → Heap.WholeWords items)

theorem addsData_write {e₁ : Emission} {b : Block} (hlabels : e₁.labels = e.labels) (hlines : e₁.lines = e.lines)
    (hwhole : b.failure = none → Heap.WholeWords b.items) (h : e₁.write b = (e', failure)) :
    AddsData e e' failure := by
  obtain ⟨rfl, rfl⟩ := Prod.mk.inj h
  exact ⟨b.items, by simp [hlabels], by simp [hlabels, hlines], hwhole⟩

theorem addsData_fail {cause : Failure} (h : (e, some cause) = (e', failure)) : AddsData e e' failure := by
  obtain ⟨rfl, rfl⟩ := Prod.mk.inj h
  exact ⟨[], rfl, by simp [DataItem.lines], by simp⟩

theorem addsData_value (hr : ∀ className l, r.classLayout className = .ok l → l.Sound)
    (h : value r e v = (e', failure)) : AddsData e e' failure := by
  unfold value at h
  split at h
  · refine addsData_write rfl rfl (fun _ => ⟨?_, ?_⟩) h
    · simp [DataItem.IsRegular]
    · simp [DataItem.dataAll, DataItem.data]
  · split at h
    · split at h
      · exact addsData_fail h
      · rename_i hname
        obtain ⟨-, hlabels, hlines⟩ := ensureName_keeps hname
        exact addsData_write hlabels hlines (Heap.wholeWords_block hr) h
    · exact addsData_write rfl rfl (Heap.wholeWords_block hr) h
    · exact addsData_fail h
  · exact addsData_fail h
  · exact addsData_fail h

/-- What the objects from a label on are written as: the labels in order, all of them unless there is a failure, and
each of them aligned. -/
theorem labelsAligned_run {fuel next : Nat} (hr : ∀ className l, r.classLayout className = .ok l → l.Sound)
    (hnext : next ≤ e.labels.size) (h : run r fuel next e = (e', failure)) :
    ∃ lines, e'.lines.toList = e.lines.toList ++ lines ∧
      (failure = none → next ≤ e'.labels.size ∧
        definitions lines = (List.range' next (e'.labels.size - next)).map LabelTable.label) ∧
      ∀ start, 4 ∣ start → LabelsAligned start lines := by
  induction fuel generalizing next e with
  | zero =>
    cases h
    exact ⟨[], by simp, by simp, fun _ _ => .nil⟩
  | succ fuel ih =>
    rw [run] at h
    split at h
    · rename_i hnone
      obtain ⟨rfl, rfl⟩ := Prod.mk.inj h
      have hsize : e.labels.size ≤ next := by simpa [LabelTable.size] using hnone
      refine ⟨[], by simp, fun _ => ⟨hnext, ?_⟩, fun _ _ => .nil⟩
      rw [Nat.sub_eq_zero_of_le hsize]
      rfl
    · rename_i hsome
      have hlt : next < e.labels.size := (Array.getElem?_eq_some_iff.1 hsome).1
      split at h
      · rename_i hvalue
        cases h
        -- what is written of the object that fails has no label behind it
        obtain ⟨items, -, hlines, -⟩ := addsData_value hr hvalue
        refine ⟨.label (LabelTable.label next) :: (DataItem.lines e.labels items).1, by simp [hlines], by simp,
          fun start hstart => ?_⟩
        exact .single hstart (label_not_mem_lines e.labels items)
      · rename_i e₁ hvalue
        obtain ⟨items, hlabels, hlines, hwhole⟩ := addsData_value hr hvalue
        have hextends : e.labels.Extends e₁.labels := hlabels ▸ DataItem.extends_lines items e.labels
        obtain ⟨more, hmore, hdefined, haligned⟩ := ih (Nat.lt_of_lt_of_le hlt hextends.size_le) h
        refine ⟨.label (LabelTable.label next) :: (DataItem.lines e.labels items).1 ++ more, by simp [hmore, hlines],
          fun hnone => ?_, fun start hstart => ?_⟩
        · obtain ⟨hle, hdefinitions⟩ := hdefined hnone
          have hdata := (DataItem.lines_spec (P := fun _ => True) items (fun _ _ => trivial) e.labels).2.1
          refine ⟨Nat.le_of_succ_le hle, ?_⟩
          rw [show e'.labels.size - next = (e'.labels.size - (next + 1)) + 1 by omega, List.range'_succ]
          simp [hdata, hdefinitions, Line.definition?]
        · have hbytes := DataItem.assemble?_lines (hwhole rfl).regular .refl start (t := e.labels)
          have hdvd := (hwhole rfl).dvd_length (DataItem.lines e.labels items).2 start hstart
          exact .cons hstart (label_not_mem_lines e.labels items) hbytes (haligned _ (Nat.dvd_add hstart hdvd))

/-- Objects fill their layouts. The text of an instance of a class with a sound layout, wherever it stands, defines as
many bytes as the layout has: the label of the vtable, each field at its offset with the value that is set for it,
lowest byte first, and zeros. The text of an array of numbers is the label of its vtable, its length and its elements,
and zeros up to a multiple of four bytes. If all layouts are sound and the text of all objects starts at a multiple of
four bytes, then every label in it is at one, even if a failure ends the text; without a failure it has all labels. -/
theorem objects_fill_layouts (r : ObjectResolver) :
    (∀ (e e' : Emission) (id : ObjectId) (className : String) (values : List (String × Value)) (l : ObjectLayout),
      e.heap.get? id = some (.ofClass className values) → r.classLayout className = .ok l → l.Sound →
      value r e (.object id) = (e', none) →
      ∃ lines, e'.lines.toList = e.lines.toList ++ lines ∧ ∀ start, ∃ bytes, assemble? start lines = some bytes ∧
        l.Filled (e.heap.vtable l.metadata) values e'.labels bytes) ∧
    (∀ (e e' : Emission) (id : ObjectId) (element : BaseType) (values : List Int),
      e.heap.get? id = some (.primitiveArray element values) → value r e (.object id) = (e', none) →
      ∃ lines metadata text, e'.lines.toList = e.lines.toList ++ lines ∧
        r.arrayMetadata (Object.primitiveArrayType element) = .ok metadata ∧
        e'.labels.get (e.heap.vtable metadata) = (text, e'.labels) ∧
        ∀ start, 4 ∣ start → ∃ padding < 4, 4 ∣ 8 + values.length * element.bytes + padding ∧
          assemble? start lines = some (addressData 4 text ++ (numberData 4 values.length ++
            (values.flatMap (numberData element.bytes) ++ zeroData padding)))) ∧
    ((∀ className l, r.classLayout className = .ok l → l.Sound) →
      ∀ (e e' : Emission) (failure : Option Failure), all r e = (e', failure) →
      ∃ lines, e'.lines.toList = e.lines.toList ++ lines ∧
        (failure = none → definitions lines = (List.range e'.labels.size).map LabelTable.label) ∧
        ∀ start, 4 ∣ start → LabelsAligned start lines) := by
  refine ⟨fun e e' id className values l hget hlayout hl h => ?_, fun e e' id element values hget h => ?_,
    fun hr e e' failure h => ?_⟩
  · simp only [value, hget] at h
    obtain ⟨rfl, hfailure⟩ := Prod.mk.inj h
    obtain ⟨hregular, -, -⟩ := Heap.holdsFields_block hlayout hl hfailure
    refine ⟨_, Array.toList_appendList .., fun start => ⟨_, DataItem.assemble?_lines hregular .refl start, ?_⟩⟩
    exact Heap.filled_block hlayout hl hfailure (fun v hv => DataItem.get_of_mem_lines hv .refl) start
  · simp only [value, hget] at h
    obtain ⟨rfl, hfailure⟩ := Prod.mk.inj h
    obtain ⟨metadata, hmetadata, hmem, hregular, hdata⟩ := Heap.block_primitiveArray hfailure
    have hvtable : e.heap.vtable metadata ∈
        (e.heap.block r (.primitiveArray element values)).items.flatMap DataItem.values :=
      List.mem_flatMap.2 ⟨_, hmem, List.mem_cons_self ..⟩
    refine ⟨_, metadata, _, Array.toList_appendList .., hmetadata,
      Prod.ext rfl (DataItem.get_of_mem_lines hvtable .refl), fun start hstart => ?_⟩
    refine ⟨paddingTo 4 (start + (8 + values.length * element.bytes)), Nat.mod_lt _ (by decide), ?_, ?_⟩
    · have hdvd := Heap.dvd_add_paddingTo (start + (8 + values.length * element.bytes))
      rw [Nat.add_assoc] at hdvd
      exact (Nat.dvd_add_right hstart).1 hdvd
    · rw [DataItem.assemble?_lines hregular .refl start, hdata, Heap.wordData_vtable]
  · obtain ⟨lines, hlines, hdefined, haligned⟩ := labelsAligned_run hr (Nat.zero_le _) h
    refine ⟨lines, hlines, fun hnone => ?_, haligned⟩
    rw [(hdefined hnone).2, Nat.sub_zero, List.range_eq_range']

/-! ### Points -/

/-- A reference, a byte and a long behind the vtable, and a second field of the same name as the byte. -/
def pointLayout : ObjectLayout where
  metadata := 1
  size := 24
  fields := [slot "next" 16, ⟨"kind", 4, { base := .byte }⟩, ⟨"mass", 8, { base := .long }⟩,
    ⟨"kind", 20, { base := .int }⟩, ⟨"vtable", 0, { base := .int }⟩]

def textLayout : ObjectLayout where
  metadata := 1
  size := 8
  fields := [slot "value" 4]

def points : ObjectResolver where
  arrayMetadata _ := .ok 1
  classLayout
    | "Point" => .ok pointLayout
    | "Text" => .ok textLayout
    | name => .error (Cause.classNotFound name : Failure)
  newString := newText

theorem ordered_pointLayout : pointLayout.ordered = [⟨"kind", 4, { base := .byte }⟩, ⟨"mass", 8, { base := .long }⟩,
    slot "next" 16, ⟨"kind", 20, { base := .int }⟩] := by
  simp [ObjectLayout.ordered, pointLayout, slot, ObjectLayout.headerSize, List.mergeSort]

theorem sound_pointLayout : pointLayout.Sound where
  four_le := by decide
  aligned := by decide
  small := by decide
  within := by decide
  apart := by decide

theorem sound_points (className : String) (l : ObjectLayout) (h : points.classLayout className = .ok l) : l.Sound := by
  simp only [points] at h
  split at h
  · cases h
    exact sound_pointLayout
  · cases h
    exact ⟨by decide, by decide, by decide, by decide, by decide⟩
  · cases h

/-- A point that refers to three bytes. -/
def point : Emission where
  heap := ⟨#[.objectArray Heap.vtableType [.object 1],
    .metadata { kind := .classType, name := "Point", vtable := some 0 },
    .ofClass "Point" [("kind", .int .int 511), ("mass", .int .int64 (-2)), ("next", .object 3)],
    .primitiveArray .byte [1, -1, 300]]⟩
  labels := (({} : LabelTable).getAll [.object 2]).2

theorem block_point : point.heap.block points
    (.ofClass "Point" [("kind", .int .int 511), ("mass", .int .int64 (-2)), ("next", .object 3)]) =
      { items := [.references [.object 0], .numbers 1 [511], .zeros 3, .numbers 8 [-2], .references [.object 3],
        .numbers 4 [0]] } := by
  simp only [Heap.block, points, ordered_pointLayout]
  decide +kernel

theorem point_fills_layout :
    ((value points point (.object 2)).2 = none ∧ ∃ lines bytes,
      (value points point (.object 2)).1.lines.toList = point.lines.toList ++ lines ∧ assemble? 0 lines = some bytes ∧
      pointLayout.Filled (.object 0) [("kind", .int .int 511), ("mass", .int .int64 (-2)), ("next", .object 3)]
        (value points point (.object 2)).1.labels bytes) ∧
    ((value points point (.object 3)).2 = none ∧ ∃ lines text,
      (value points point (.object 3)).1.lines.toList = point.lines.toList ++ lines ∧
      ∃ padding < 4, 4 ∣ 8 + 3 * 1 + padding ∧ assemble? 0 lines = some (addressData 4 text ++ (numberData 4 3 ++
        ([1, -1, 300].flatMap (numberData 1) ++ zeroData padding)))) ∧
    (all points point).2 = none ∧ ∃ lines, (all points point).1.lines.toList = point.lines.toList ++ lines ∧
      definitions lines = (List.range (all points point).1.labels.size).map LabelTable.label ∧
      LabelsAligned 0 lines := by
  have hinstance : (value points point (.object 2)).2 = none := congrArg Block.failure block_point
  have harray : (value points point (.object 3)).2 = none := by decide +kernel
  have hall : (all points point).2 = none := by
    have hlabel : point.labels.order[0]? = some (.object 2) := by decide +kernel
    rw [all_of_first hlabel rfl block_point rfl]
    decide +kernel
  obtain ⟨hfill, hnumbers, haligned⟩ := objects_fill_layouts points
  obtain ⟨lines, hlines, hbytes⟩ := hfill _ _ 2 _ _ _ rfl rfl sound_pointLayout (Prod.ext rfl hinstance)
  obtain ⟨bytes, hassemble, hfilled⟩ := hbytes 0
  obtain ⟨lines', _, text, hlines', -, -, hbytes'⟩ := hnumbers _ _ 3 _ _ rfl (Prod.ext rfl harray)
  obtain ⟨lines'', hlines'', hdefined, haligned⟩ :=
    haligned sound_points point (all points point).1 none (Prod.ext rfl hall)
  exact ⟨⟨hinstance, lines, bytes, hlines, hassemble, hfilled⟩, ⟨harray, lines', text, hlines', hbytes' 0 (by decide)⟩,
    hall, lines'', hlines'', hdefined rfl, haligned 0 (by decide)⟩

end Emission

end JvmAot
