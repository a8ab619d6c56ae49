import JvmAot.Proofs.Session.Texts

/-! # The runtime objects of a session

`Populated`: the symbols that objects hold are those of resolved methods, and exactly the classes that are no
interfaces have a vtable. Every step keeps this, so it says what the data of a program defines and refers to
(`dataLines_of_success`). -/

namespace JvmAot

namespace Heap
variable {h : Heap} {id : ObjectId} {m : Metadata} {o : Object} {P : String → Prop}

theorem Holds.mono {Q : String → Prop} (hP : h.Holds P) (hPQ : ∀ x, P x → Q x) : h.Holds Q :=
  fun id o x hget hx => hPQ x (hP id o x hget hx)

theorem metadata?_eq_some_iff : h.metadata? id = some m ↔ h.get? id = some (.metadata m) := by
  unfold metadata?
  split
  · rename_i heq
    simp [heq]
  · rename_i hne
    exact ⟨nofun, fun heq => absurd heq (hne m)⟩

theorem get?_allocate : (h.allocate o).2.get? id = if id = h.objects.size then some o else h.get? id := by
  simp only [allocate, get?, Array.getElem?_push]

theorem get?_allocate_of_some {o' : Object} (hget : h.get? id = some o') : (h.allocate o).2.get? id = some o' := by
  have hlt : id < h.objects.size := (Array.getElem?_eq_some_iff.1 hget).1
  rw [get?_allocate, if_neg (Nat.ne_of_lt hlt), hget]

/-- The vtable of metadata is an array of references. -/
def Tabled (h : Heap) : Prop :=
  ∀ id m v, h.metadata? id = some m → m.vtable = some v → ∃ type elements, h.get? v = some (.objectArray type elements)

namespace Tabled

theorem allocate (hh : h.Tabled)
    (ho : ∀ m v, o = .metadata m → m.vtable = some v → ∃ type elements, h.get? v = some (.objectArray type elements)) :
    (h.allocate o).2.Tabled := by
  intro id m v hm hv
  rw [metadata?_eq_some_iff, get?_allocate] at hm
  obtain ⟨type, elements, hget⟩ : ∃ type elements, h.get? v = some (.objectArray type elements) := by
    split at hm
    · exact ho m v (Option.some.inj hm) hv
    · exact hh id m v (metadata?_eq_some_iff.2 hm) hv
  exact ⟨type, elements, get?_allocate_of_some hget⟩

/-- Filling a vtable leaves all metadata as it is. -/
theorem metadata?_setVtable (hh : h.Tabled) (id : ObjectId) (entries : List Value) :
    (h.setVtable id entries).metadata? = h.metadata? := by
  unfold setVtable
  split
  · rename_i v hv
    obtain ⟨m, hm, hv⟩ := Option.bind_eq_some_iff.1 hv
    obtain ⟨type, elements, hget⟩ := hh id m v hm hv
    funext id'
    by_cases hid : id' = v
    · subst hid
      have hlt : id' < h.objects.size := (Array.getElem?_eq_some_iff.1 hget).1
      have hset : (h.set id' (.objectArray vtableType entries)).get? id' = some (.objectArray vtableType entries) := by
        simp [set, get?, hlt]
      simp only [metadata?, hget, hset]
    · simp [metadata?, set, get?, Ne.symm hid]
  · rfl

theorem setVtable (hh : h.Tabled) (id : ObjectId) (entries : List Value) : (h.setVtable id entries).Tabled := by
  intro id' m v hm hv
  rw [hh.metadata?_setVtable] at hm
  obtain ⟨type, elements, hget⟩ := hh id' m v hm hv
  unfold Heap.setVtable
  split
  · rename_i v' _
    have hlt : v < h.objects.size := (Array.getElem?_eq_some_iff.1 hget).1
    by_cases hne : v' = v
    · subst hne
      exact ⟨vtableType, entries, by simp [set, get?, hlt]⟩
    · exact ⟨type, elements, by simpa [set, get?, Array.getElem?_setIfInBounds, hne] using hget⟩
  · exact ⟨type, elements, hget⟩

end Tabled

theorem Holds.setVtable {entries : List Value} (hP : h.Holds P) (hentries : ∀ x, .symbol x ∈ entries → P x) :
    (h.setVtable id entries).Holds P := by
  unfold Heap.setVtable
  split
  · exact hP.set hentries
  · exact hP

/-- What a heap is like after metadata was added to `h` at `id`. -/
structure Gains (h : Heap) (m : Metadata) (id : ObjectId) (h' : Heap) : Prop where
  tabled : h.Tabled → h'.Tabled
  holds : ∀ {P}, h.Holds P → h'.Holds P
  metadata? : ∀ {id m}, h.metadata? id = some m → h'.metadata? id = some m
  self : ∃ m', h'.metadata? id = some m' ∧ (m'.vtable = none ↔ m.kind = .interfaceType)

theorem gains_newMetadata {h' : Heap} (hm : m.vtable = none) (heq : h.newMetadata m = (id, h')) : Gains h m id h' := by
  have hself {h : Heap} {o : Object} : (h.allocate o).2.get? h.objects.size = some o := by
    rw [get?_allocate, if_pos rfl]
  unfold newMetadata at heq
  split at heq
  · cases heq
    refine ⟨fun hh => hh.allocate fun m' v hm' hv => ?_, fun hP => hP.allocate (by simp [Object.values]), fun hid => ?_,
      m, metadata?_eq_some_iff.2 hself, by simp [*]⟩
    · cases hm'
      rw [hm] at hv
      cases hv
    · exact metadata?_eq_some_iff.2 (get?_allocate_of_some (metadata?_eq_some_iff.1 hid))
  · cases heq
    refine ⟨fun hh => (hh.allocate (by simp)).allocate fun m' v hm' hv => ?_,
      fun hP => (hP.allocate (by simp [Object.values])).allocate (by simp [Object.values]), fun hid => ?_,
      { m with vtable := some h.objects.size }, metadata?_eq_some_iff.2 hself, by simp [*]⟩
    · cases hm'
      cases hv
      exact ⟨_, _, hself⟩
    · exact metadata?_eq_some_iff.2
        (get?_allocate_of_some (get?_allocate_of_some (metadata?_eq_some_iff.1 hid)))

end Heap

/-! ### Steps -/

/-- A symbol of a method that one of the classes declares. -/
def ClassTable.Declares (t : ClassTable) (x : String) : Prop :=
  ∃ c ∈ t.latest, ∃ m ∈ c.methods, x = m.symbol

/-- The methods in the vtable of a class are declared in the table. -/
theorem ClassTable.Linked.declares_of_mem_slots {loader : Loader} {t : ClassTable} {c : ClassInfo}
    (h : t.Linked loader) (hc : c ∈ t.latest) {slot : String × DeclaredMethod} (hslot : slot ∈ c.vtable.slots) :
    t.Declares slot.2.symbol := by
  refine h.induct (P := fun c => slot ∈ c.vtable.slots → t.Declares slot.2.symbol)
    (fun {c file super} hc hbuilds ih hslot => ?_) hc hslot
  rcases mem_slots_allocateMethods hbuilds.methods hslot with ⟨m, hm, -, rfl⟩ | hslot
  · exact ⟨c, hc, m, hm, rfl⟩
  · cases super with
    | none => cases hslot
    | some k => exact ih k rfl hslot

theorem ClassTable.Linked.declares_of_mem_vtableContents {loader : Loader} {t : ClassTable} {c : ClassInfo}
    (h : t.Linked loader) (hc : c ∈ t.latest) {id : ObjectId} {x : String} (hx : .symbol x ∈ c.vtableContents id) :
    t.Declares x := by
  simp only [ClassInfo.vtableContents, Vtable.build, List.mem_cons, reduceCtorEq, false_or, List.mem_map] at hx
  obtain ⟨slot, hslot, heq⟩ := hx
  unfold DeclaredMethod.vtableEntry at heq
  split at heq
  · cases heq
  · cases heq
    exact h.declares_of_mem_slots hc hslot

namespace Session

variable {loader : Loader} {s s' : Session} {c : ClassInfo}

theorem newString_of_ok {string : Option ClassInfo} {units : List UInt16} {heap heap' : Heap} {id : ObjectId}
    (h : newString string units heap = .ok (id, heap')) : ∃ field,
      (heap.allocate (.characters units)).2.allocate (.ofClass stringClass [(field, .object heap.objects.size)]) =
        (id, heap') := by
  unfold newString at h
  split at h
  · cases h
  · dsimp only at h
    split at h
    · cases h
    · exact ⟨_, Except.ok.inj h⟩

/-- Objects hold the symbols of methods, and all classes but interfaces have vtables. -/
structure Populated (s : Session) : Prop where
  holds : s.heap.Holds s.classes.Declares
  tabled : s.heap.Tabled
  vtables : ∀ c ∈ s.classes.latest, ∃ m, s.heap.metadata? c.metadata = some m ∧ (m.vtable = none ↔ c.isInterface)
  root : ∀ c, s.object = some c → c ∈ s.classes.latest

namespace Populated

theorem start : Populated {} where
  holds := by simp [Heap.Holds, Heap.get?]
  tabled := by simp [Heap.Tabled, Heap.metadata?, Heap.get?]
  vtables := by simp
  root := nofun

theorem change (hchange : Change loader s s') (hlinked : s.classes.Linked loader) (h : s.Populated) : s'.Populated := by
  cases hchange with
  | @define name file super =>
    rcases define_cases name file super s with
      ⟨_, heq⟩ | ⟨c, statics, heap, heq, rfl, -, hflags, -, -, hmetadata⟩ <;> rw [heq]
    · exact ⟨h.holds, h.tabled, h.vtables, h.root⟩
    · have hgains := Heap.gains_newMetadata (by split <;> rfl) hmetadata
      refine ⟨(hgains.holds h.holds).mono ?_, hgains.tabled h.tabled, ?_,
        fun k hk => List.mem_cons_of_mem _ (h.root k hk)⟩
      · rintro x ⟨k, hk, hx⟩
        exact ⟨k, List.mem_cons_of_mem _ hk, hx⟩
      · refine List.forall_mem_cons.2 ⟨?_, fun k hk => ?_⟩
        · obtain ⟨m, hm, hnone⟩ := hgains.self
          refine ⟨m, hm, hnone.trans ?_⟩
          rw [ClassInfo.isInterface, hflags]
          split <;> simp [*]
        · obtain ⟨m, hm, hnone⟩ := h.vtables k hk
          exact ⟨m, hgains.metadata? hm, hnone⟩
  | @defineArray object descriptor element elementType hobject =>
    rcases hmetadata : s.heap.newMetadata
      { kind := if element.isSome then .objectArray else .primitiveArray, name := descriptor,
        parent := some object.metadata, element, elementType } with ⟨metadata, heap⟩
    have hgains := Heap.gains_newMetadata rfl hmetadata
    simp only [defineArray, hmetadata]
    refine ⟨(hgains.holds h.holds).setVtable fun x hx => ?_, (hgains.tabled h.tabled).setVtable _ _,
      fun k hk => ?_, h.root⟩
    · exact hlinked.declares_of_mem_vtableContents (h.root object hobject) hx
    · obtain ⟨m, hm, hnone⟩ := h.vtables k hk
      exact ⟨m, by rw [(hgains.tabled h.tabled).metadata?_setVtable]; exact hgains.metadata? hm, hnone⟩
  | designate hobject _ _ =>
    refine ⟨h.holds, h.tabled, h.vtables, fun k hk => ?_⟩
    rcases hobject k hk with hk | hk
    · exact h.root k hk
    · exact ClassTable.mem_of_find? hk

theorem step (hstep : Step loader s s') (hlinked : s.classes.Linked loader) (h : s.Populated) : s'.Populated := by
  cases hstep with
  | change hchange => exact h.change hchange hlinked
  | label => exact ⟨h.holds, h.tabled, h.vtables, h.root⟩
  | string className slot units =>
    unfold stringObject
    split
    · exact h
    split
    · exact h
    rename_i heq
    obtain ⟨field, hheap⟩ := newString_of_ok heq
    cases hheap
    refine ⟨(h.holds.allocate (by simp [Object.values, Object.characters])).allocate (by simp [Object.values]),
      (h.tabled.allocate (by simp [Object.characters])).allocate (by simp), fun k hk => ?_, h.root⟩
    obtain ⟨m, hm, hnone⟩ := h.vtables k hk
    rw [Heap.metadata?_eq_some_iff] at hm
    exact ⟨m, Heap.metadata?_eq_some_iff.2 (Heap.get?_allocate_of_some (Heap.get?_allocate_of_some hm)), hnone⟩
  | @fill c hc =>
    refine ⟨h.holds.setVtable fun x hx => hlinked.declares_of_mem_vtableContents hc hx, h.tabled.setVtable _ _,
      fun k hk => ?_, h.root⟩
    obtain ⟨m, hm, hnone⟩ := h.vtables k hk
    exact ⟨m, by rw [fillVtable, h.tabled.metadata?_setVtable]; exact hm, hnone⟩

end Populated

/-! ### The data of a program -/

theorem makesStrings_objectResolver (loader : Loader) (s : Session) : (s.objectResolver loader).MakesStrings := by
  intro text heap id heap' h
  obtain ⟨field, hheap⟩ := newString_of_ok h
  cases hheap
  exact ⟨_, _, field, rfl, by simp [Heap.allocate]⟩

/-- Each class that is no interface gets a vtable symbol, which stands for a label. -/
theorem aliasLines_spec (classes : List ClassInfo)
    (h : ∀ c ∈ classes, ∃ m, s.heap.metadata? c.metadata = some m ∧ (m.vtable = none ↔ c.isInterface)) :
    ∃ labels, (aliasLines classes s).2 = { s with labels } ∧ s.labels.Extends labels ∧
      definitions (aliasLines classes s).1 =
        (classes.filter fun c => !c.isInterface).map (fun c => Symbol.ofVtable c.name) ∧
      ∀ x ∈ mentions (aliasLines classes s).1, ∃ n < labels.size, x = LabelTable.label n := by
  induction classes generalizing s with
  | nil => exact ⟨s.labels, rfl, .refl, rfl, by simp [aliasLines]⟩
  | cons c rest ih =>
    obtain ⟨⟨m, hm, hnone⟩, hrest⟩ := List.forall_mem_cons.1 h
    rw [aliasLines]
    cases hv : m.vtable with
    | none =>
      obtain ⟨labels, hstate, hextends, hdefs, hrefs⟩ := ih hrest
      have hvtable : s.heap.vtable c.metadata = .missingVtable := by simp [Heap.vtable, hm, hv]
      rw [hvtable]
      exact ⟨labels, hstate, hextends, by simp [hdefs, hnone.1 hv], hrefs⟩
    | some v =>
      have hvtable : s.heap.vtable c.metadata = .object v := by simp [Heap.vtable, hm, hv]
      have hclass : c.isInterface = false := by
        simp [← Bool.not_eq_true, ← hnone, hv]
      obtain ⟨hfirst, hname⟩ := s.labels.get_spec (.object v)
      obtain ⟨labels, hstate, hextends, hdefs, hrefs⟩ := ih (s := (s.label (.object v)).2) hrest
      rw [hvtable]
      refine ⟨labels, hstate, hfirst.trans hextends, ?_, fun x hx => ?_⟩
      · simp [hdefs, hclass, Line.definition?]
      · rcases List.mem_cons.1 hx with rfl | hx
        · exact (hname.mono hextends).exists_label (by simp) (by simp)
        · exact hrefs x hx

/-- The data defines the static fields, a vtable symbol for each class that is no interface, the labels that were
given out, and the start of the heap. It refers to the labels and to methods of the classes. -/
theorem dataLines_of_success (h : s.Populated) (hf : (s.dataLines loader).failure = none) :
    ∃ heap labels, (s.dataLines loader).state = { s with heap, labels } ∧ s.labels.Extends labels ∧
      definitions (s.dataLines loader).lines =
        Symbol.staticFields :: ((s.classes.order.filter fun c => !c.isInterface).map fun c => Symbol.ofVtable c.name) ++
          (List.range labels.size).map LabelTable.label ++ [Symbol.dynamicHeap] ∧
      ∀ x ∈ mentions (s.dataLines loader).lines, DataItem.Refers s.classes.Declares labels x := by
  obtain ⟨labels, hstate, hextends, hdefs, hrefs⟩ :=
    aliasLines_spec s.classes.order fun c hc => h.vtables c (ClassTable.mem_order.1 hc)
  rcases haliases : aliasLines s.classes.order s with ⟨aliases, s₁⟩
  simp only [haliases] at hstate hdefs hrefs
  subst hstate
  rcases hall : Emission.all ({ s with labels }.objectResolver loader) { heap := s.heap, labels } with ⟨e, failure⟩
  simp only [dataLines, haliases, hall] at hf ⊢
  obtain ⟨hfail, heq⟩ := Listing.append_of_success hf
  obtain rfl : failure = none := hfail
  rw [heq]
  have hadds := Emission.adds_all (P := s.classes.Declares) (makesStrings_objectResolver loader _) hall
  obtain ⟨lines, hlines, hnames, hwords⟩ := hadds.lines h.holds
  simp only [List.nil_append] at hlines
  refine ⟨e.heap, e.labels, rfl, hextends.trans hadds.labels, ?_, fun x hx => ?_⟩
  · simp [Listing.prepend, staticFieldLines, hlines, hnames, hdefs, Line.definition?]
  · have hx : x ∈ mentions aliases ∨ x ∈ mentions lines := by
      simpa [Listing.prepend, staticFieldLines, hlines, Line.mentions] using hx
    rcases hx with hx | hx
    · obtain ⟨n, hn, rfl⟩ := hrefs x hx
      exact .inr ⟨n, Nat.lt_of_lt_of_le hn hadds.labels.size_le, rfl⟩
    · exact hwords x hx

end Session

end JvmAot
