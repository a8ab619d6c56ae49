import JvmAot.Proofs.Heap.Graph
import JvmAot.Proofs.Session.Contents

/-! # The data of a program

`dataLines_written`: after the static fields and the vtable symbols, the data consists of the blocks of the objects that
have labels, in the order of the labels. The vtables of classes are among them. -/

namespace JvmAot

/-- The lines of data items are directives. -/
theorem DataItem.directive_of_mem_lines {items : List DataItem} {labels : LabelTable} {line : Line}
    (hline : line ∈ (lines labels items).1) : ∃ name values, line = .directive name values := by
  induction items generalizing labels with
  | nil => cases hline
  | cons item rest ih =>
    rcases List.mem_cons.1 hline with rfl | hline
    · cases item <;> exact ⟨_, _, rfl⟩
    · exact ih hline

namespace Session

variable {loader : Loader} {s s' : Session} {c : ClassInfo}

theorem Step.proper (hstep : Step loader s s') (h : s.labels.Proper) : s'.labels.Proper := by
  cases hstep with
  | change hchange =>
    rw [hchange.frame.1]
    exact h
  | label v => exact h.get v
  | string =>
    rw [stringObject_frame]
    exact h
  | fill => exact h

theorem Steps.proper (hsteps : Steps loader s s') (h : s.labels.Proper) : s'.labels.Proper :=
  hsteps.keep (P := fun s => s.labels.Proper) (fun hstep h => hstep.proper h) h

theorem Texts.proper {classes : List ClassInfo} {lines : List Line} (htexts : Texts loader classes s s' lines)
    (h : s.labels.Proper) : s'.labels.Proper :=
  htexts.keep (P := fun s => s.labels.Proper) (fun hstep h => hstep.proper h) (fun _ h => h) h

/-- The vtable symbols are equated to labels that their vtables have from then on. -/
theorem aliasLines_proper (classes : List ClassInfo) (h : s.labels.Proper) :
    ∃ labels, (aliasLines classes s).2 = { s with labels } ∧ labels.Proper ∧ s.labels.Extends labels ∧
      (∀ line ∈ (aliasLines classes s).1, ∃ x label, line = .equate x label) ∧
      ∀ c ∈ classes, ∀ v, s.heap.vtable c.metadata = .object v → .object v ∈ labels.order.toList := by
  induction classes generalizing s with
  | nil => exact ⟨s.labels, rfl, h, .refl, by simp [aliasLines], by simp⟩
  | cons c rest ih =>
    rw [aliasLines]
    split
    · rename_i hmissing
      obtain ⟨labels, hstate, hproper, hextends, hlines, hmem⟩ := ih h
      refine ⟨labels, hstate, hproper, hextends, hlines, List.forall_mem_cons.2 ⟨fun v hv => ?_, hmem⟩⟩
      rw [hmissing] at hv
      cases hv
    · rename_i vtable _
      obtain ⟨hfirst, hname⟩ := s.labels.get_spec (s.heap.vtable c.metadata)
      obtain ⟨labels, hstate, hproper, hextends, hlines, hmem⟩ :=
        ih (s := (s.label (s.heap.vtable c.metadata)).2) (h.get _)
      refine ⟨labels, hstate, hproper, hfirst.trans hextends,
        List.forall_mem_cons.2 ⟨⟨_, _, rfl⟩, hlines⟩, List.forall_mem_cons.2 ⟨fun v hv => ?_, hmem⟩⟩
      have hname := hname.mono hextends
      rw [hv] at hname
      generalize (s.labels.get (.object v)).1 = text at hname
      cases hname with
      | object hn => exact List.mem_of_getElem? hn

/-- The data of a program, if it can be written: the static fields, the vtable symbols, and the blocks of all objects
that have labels, among them the vtables of the classes. -/
theorem dataLines_parts (h : s.labels.Proper) (hf : (s.dataLines loader).failure = none) :
    ∃ (labels : LabelTable) (e : Emission) (ids : List ObjectId),
      (aliasLines s.classes.order s).2 = { s with labels } ∧ labels.Extends e.labels ∧
      (s.dataLines loader).state = { s with heap := e.heap, labels := e.labels } ∧
      s.heap.Grows e.heap ∧ e.labels.order.toList = ids.map .object ∧ e.labels.Proper ∧
      (∀ id ∈ ids, ∃ o, e.Written ({ s with labels }.objectResolver loader) id o) ∧
      (∀ c ∈ s.classes.latest, ∀ v, s.heap.vtable c.metadata = .object v → v ∈ ids) ∧
      (s.dataLines loader).lines =
        s.staticFieldLines ++ [Line.banner "alias labels for runtime objects", Line.segment ".data"] ++
          (aliasLines s.classes.order s).1 ++ [Line.blank] ++ [Line.banner "runtime objects", Line.segment ".data"] ++
          (ids.zipIdx.flatMap fun (id, n) =>
            Line.label (LabelTable.label n) :: e.text ({ s with labels }.objectResolver loader) id) ++
          [Line.blank, Line.segment ".data", Line.label Symbol.dynamicHeap] := by
  obtain ⟨labels, hstate, hproper, -, -, hvtables⟩ := aliasLines_proper s.classes.order h
  rcases haliases : aliasLines s.classes.order s with ⟨aliases, s₁⟩
  simp only [haliases] at hstate
  subst hstate
  rcases hall : Emission.all ({ s with labels }.objectResolver loader) { heap := s.heap, labels } with ⟨e, failure⟩
  simp only [dataLines, haliases, hall] at hf ⊢
  obtain ⟨hfail, heq⟩ := Listing.append_of_success hf
  obtain rfl : failure = none := hfail
  have hproper' : (Emission.all ({ s with labels }.objectResolver loader) { heap := s.heap, labels }).1.labels.Proper :=
    Emission.proper_run hproper _ _
  obtain ⟨ids, horder, hgrows, hlabels, hwritten, hlines⟩ :=
    Emission.run_spec (makesStrings_objectResolver loader _) hproper (Nat.zero_le _) hall
  rw [List.drop_zero] at horder
  rw [heq]
  refine ⟨labels, e, ids, rfl, hlabels, rfl, hgrows, horder, by rwa [hall] at hproper', hwritten, fun c hc v hv => ?_, ?_⟩
  · have hmem := hlabels.subset (hvtables c (ClassTable.mem_order.2 hc) v hv)
    rw [horder] at hmem
    obtain ⟨id, hid, heq⟩ := List.mem_map.1 hmem
    cases heq
    exact hid
  · simp [Listing.prepend, hlines, staticFieldLines, staticWords]

/-- The same with the vtable symbols as equates of any kind. -/
theorem dataLines_written (h : s.labels.Proper) (hf : (s.dataLines loader).failure = none) :
    ∃ (labels : LabelTable) (e : Emission) (ids : List ObjectId) (aliases : List Line),
      (s.dataLines loader).state = { s with heap := e.heap, labels := e.labels } ∧
      s.heap.Grows e.heap ∧ e.labels.order.toList = ids.map .object ∧ e.labels.Proper ∧
      (∀ id ∈ ids, ∃ o, e.Written ({ s with labels }.objectResolver loader) id o) ∧
      (∀ c ∈ s.classes.latest, ∀ v, s.heap.vtable c.metadata = .object v → v ∈ ids) ∧
      (∀ line ∈ aliases, ∃ x label, line = .equate x label) ∧
      (s.dataLines loader).lines =
        s.staticFieldLines ++ [Line.banner "alias labels for runtime objects", Line.segment ".data"] ++ aliases ++
          [Line.blank] ++ [Line.banner "runtime objects", Line.segment ".data"] ++
          (ids.zipIdx.flatMap fun (id, n) =>
            Line.label (LabelTable.label n) :: e.text ({ s with labels }.objectResolver loader) id) ++
          [Line.blank, Line.segment ".data", Line.label Symbol.dynamicHeap] := by
  obtain ⟨labels, e, ids, -, -, hstate, hgrows, horder, hproper, hwritten, hvtables, hlines⟩ := dataLines_parts h hf
  obtain ⟨-, -, -, -, hequates, -⟩ := aliasLines_proper s.classes.order h
  exact ⟨labels, e, ids, _, hstate, hgrows, horder, hproper, hwritten, hvtables, hequates, hlines⟩

end Session

end JvmAot
