import JvmAot.Proofs.Session.Contents

/-! # The metadata of classes

`Described`: the metadata of a class has its name and its kind, and the metadata of its superclass for parent. No
two metadata share a vtable, so a vtable that was filled is never overwritten (`Described.filled_step`). -/

namespace JvmAot

namespace Heap
variable {h h' : Heap} {id id' : ObjectId} {m : Metadata} {o : Object} {entries entries' : List Value}

/-- No two metadata share a vtable. -/
def Separate (h : Heap) : Prop :=
  ∀ id id' m m' v, h.metadata? id = some m → h.metadata? id' = some m' → m.vtable = some v → m'.vtable = some v →
    id = id'

theorem get?_size (h : Heap) : h.get? h.objects.size = none := by
  simp [get?]

theorem metadata?_allocate (m : Metadata) (id : ObjectId) :
    (h.allocate (.metadata m)).2.metadata? id = if id = h.objects.size then some m else h.metadata? id := by
  unfold metadata?
  rw [get?_allocate]
  by_cases hid : id = h.objects.size <;> simp [hid]

theorem metadata?_allocate_of_ne (ho : ∀ m, o ≠ .metadata m) : (h.allocate o).2.metadata? = h.metadata? := by
  funext id
  unfold metadata?
  rw [get?_allocate]
  by_cases hid : id = h.objects.size
  · subst hid
    cases o with
    | metadata m => exact absurd rfl (ho m)
    | _ => simp [get?_size]
  · rw [if_neg hid]

/-- New metadata comes with a vtable that was not there before, if any. All else stays. -/
theorem newMetadata_spec (hm : m.vtable = none) (heq : h.newMetadata m = (id, h')) :
    ∃ vtable, (∀ id', h'.metadata? id' = if id' = id then some { m with vtable } else h.metadata? id') ∧
      (∀ v, vtable = some v → h.objects.size ≤ v) ∧ ∀ i o, h.get? i = some o → h'.get? i = some o := by
  unfold newMetadata at heq
  split at heq
  · cases heq
    refine ⟨none, fun id' => ?_, nofun, fun i o => get?_allocate_of_some⟩
    rw [← hm]
    exact metadata?_allocate m id'
  · cases heq
    have hvtable : (h.allocate (.objectArray vtableType [])).2.metadata? = h.metadata? :=
      metadata?_allocate_of_ne (by simp)
    refine ⟨some h.objects.size, fun id' => ?_, ?_, fun i o hget => get?_allocate_of_some (get?_allocate_of_some hget)⟩
    · rw [← hvtable]
      exact metadata?_allocate _ id'
    · rintro v ⟨⟩
      exact Nat.le_refl _

theorem get?_of_newMetadata (heq : h.newMetadata m = (id, h')) : h.get? id = none := by
  unfold newMetadata at heq
  split at heq
  · cases heq
    exact h.get?_size
  · cases heq
    simp [get?]

theorem Tabled.lt_size {v : ObjectId} (hh : h.Tabled) (hm : h.metadata? id = some m) (hv : m.vtable = some v) :
    v < h.objects.size := by
  obtain ⟨type, elements, hget⟩ := hh id m v hm hv
  exact (Array.getElem?_eq_some_iff.1 hget).1

theorem Separate.newMetadata (hs : h.Separate) (hh : h.Tabled) (hm : m.vtable = none)
    (heq : h.newMetadata m = (id, h')) : h'.Separate := by
  obtain ⟨vtable, hmetadata, hfresh, -⟩ := newMetadata_spec hm heq
  intro i j mi mj v hi hj hvi hvj
  rw [hmetadata] at hi hj
  by_cases hid : i = id <;> by_cases hjd : j = id
  · rw [hid, hjd]
  · rw [if_pos hid] at hi
    rw [if_neg hjd] at hj
    cases hi
    exact absurd (hh.lt_size hj hvj) (Nat.not_lt.2 (hfresh v hvi))
  · rw [if_neg hid] at hi
    rw [if_pos hjd] at hj
    cases hj
    exact absurd (hh.lt_size hi hvi) (Nat.not_lt.2 (hfresh v hvj))
  · rw [if_neg hid] at hi
    rw [if_neg hjd] at hj
    exact hs i j mi mj v hi hj hvi hvj

theorem Separate.congr (hs : h.Separate) (heq : h'.metadata? = h.metadata?) : h'.Separate := by
  unfold Separate
  rwa [heq]

/-! ### Contents of vtables -/

theorem vtableEntries?_eq_some_iff : h.vtableEntries? id = some entries ↔
    ∃ m v type, h.metadata? id = some m ∧ m.vtable = some v ∧ h.get? v = some (.objectArray type entries) := by
  unfold vtableEntries?
  constructor
  · intro heq
    split at heq
    · rename_i type elements hget
      cases heq
      obtain ⟨v, hv, hget⟩ := Option.bind_eq_some_iff.1 hget
      obtain ⟨m, hm, hv⟩ := Option.bind_eq_some_iff.1 hv
      exact ⟨m, v, type, hm, hv, hget⟩
    · cases heq
  · rintro ⟨m, v, type, hm, hv, hget⟩
    simp [hm, hv, hget]

theorem vtableEntries?_setVtable {v : ObjectId} (hh : h.Tabled) (hm : h.metadata? id = some m)
    (hv : m.vtable = some v) (entries : List Value) :
    (h.setVtable id entries).vtableEntries? id = some entries := by
  have hlt := hh.lt_size hm hv
  refine vtableEntries?_eq_some_iff.2 ⟨m, v, vtableType, by rwa [hh.metadata?_setVtable], hv, ?_⟩
  simp [setVtable, hm, hv, set, get?, hlt]

/-- Filling a vtable leaves those of all other metadata as they are. -/
theorem vtableEntries?_setVtable_of_ne (hh : h.Tabled) (hs : h.Separate) (hne : id ≠ id')
    (hentries : h.vtableEntries? id' = some entries') : (h.setVtable id entries).vtableEntries? id' = some entries' := by
  obtain ⟨m, v, type, hm, hv, hget⟩ := vtableEntries?_eq_some_iff.1 hentries
  refine vtableEntries?_eq_some_iff.2 ⟨m, v, type, by rwa [hh.metadata?_setVtable], hv, ?_⟩
  unfold setVtable
  split
  · rename_i v' hv'
    obtain ⟨m', hm', hv'⟩ := Option.bind_eq_some_iff.1 hv'
    have hvne : v' ≠ v := by
      rintro rfl
      exact hne (hs id id' m' m v' hm' hm hv' hv)
    simpa [set, get?, Array.getElem?_setIfInBounds, hvne] using hget
  · exact hget

/-- A vtable stays as it is while all metadata and the objects that are there stay. -/
theorem vtableEntries?_of_keeps (hm : ∀ {m}, h.metadata? id = some m → h'.metadata? id = some m)
    (hget : ∀ i o, h.get? i = some o → h'.get? i = some o) (hentries : h.vtableEntries? id = some entries) :
    h'.vtableEntries? id = some entries := by
  obtain ⟨m, v, type, hid, hv, hv'⟩ := vtableEntries?_eq_some_iff.1 hentries
  exact vtableEntries?_eq_some_iff.2 ⟨m, v, type, hm hid, hv, hget v _ hv'⟩

end Heap

theorem vtable_ite_interface (isInterface : Bool) (name : String) (parent : Option ObjectId) :
    (if isInterface then { kind := .interfaceType, name } else { kind := .classType, name, parent } : Metadata).vtable =
      none := by
  split <;> rfl

/-- Metadata is that of a class with the given superclass. -/
structure Metadata.Describes (t : ClassTable) (c : ClassInfo) (super : Option ClassInfo) (m : Metadata) : Prop where
  kind : m.kind = if c.isInterface then .interfaceType else .classType
  name : m.name = c.name
  superName : c.superName = super.map (·.name)
  super_mem : ∀ k, super = some k → k ∈ t.latest
  parent : m.parent = if c.isInterface then none else super.map (·.metadata)

namespace Session

variable {loader : Loader} {s s' : Session} {c d : ClassInfo}

/-- Every class has metadata that describes it, and no vtable is shared. -/
structure Described (s : Session) : Prop where
  separate : s.heap.Separate
  metadata : ∀ c ∈ s.classes.latest, ∃ m super, s.heap.metadata? c.metadata = some m ∧ m.Describes s.classes c super

/-- The vtable of a class has its contents. -/
def Filled (s : Session) (c : ClassInfo) : Prop :=
  s.heap.vtableEntries? c.metadata = some (c.vtableContents c.metadata)

/-- A string object is no metadata, and all objects stay. -/
theorem heap_stringObject (className : String) (slot : Nat) (units : List UInt16) (s : Session) :
    (s.stringObject className slot units).2.heap.metadata? = s.heap.metadata? ∧
      ∀ i o, s.heap.get? i = some o → (s.stringObject className slot units).2.heap.get? i = some o := by
  unfold stringObject
  split
  · exact ⟨rfl, fun _ _ => id⟩
  split
  · exact ⟨rfl, fun _ _ => id⟩
  · rename_i heq
    obtain ⟨field, hheap⟩ := newString_of_ok heq
    have hcharacters := Heap.metadata?_allocate_of_ne (h := s.heap) (o := .characters units) (by simp [Object.characters])
    have hstring := Heap.metadata?_allocate_of_ne (h := (s.heap.allocate (.characters units)).2)
      (o := .ofClass stringClass [(field, .object s.heap.objects.size)]) (by simp)
    rw [hheap] at hstring
    refine ⟨hstring.trans hcharacters, fun i o hget => ?_⟩
    have hkept := Heap.get?_allocate_of_some (o := .ofClass stringClass [(field, .object s.heap.objects.size)])
      (Heap.get?_allocate_of_some (o := .characters units) hget)
    rwa [hheap] at hkept

namespace Described

theorem start : Described {} where
  separate := by simp [Heap.Separate, Heap.metadata?, Heap.get?]
  metadata := by simp

/-- Metadata that is there stays, and so do the classes. -/
theorem mono (h : s.Described) (hseparate : s'.heap.Separate) (hclasses : s'.classes = s.classes)
    (hmetadata : ∀ {id m}, s.heap.metadata? id = some m → s'.heap.metadata? id = some m) : s'.Described := by
  refine ⟨hseparate, fun k hk => ?_⟩
  rw [hclasses] at hk ⊢
  obtain ⟨m, super, hm, hdescribes⟩ := h.metadata k hk
  exact ⟨m, super, hmetadata hm, hdescribes⟩

theorem change (hchange : Change loader s s') (hpopulated : s.Populated) (h : s.Described) : s'.Described := by
  cases hchange with
  | @define name file super _ _ _ _ hsuper =>
    rcases define_cases name file super s with
      ⟨_, heq⟩ | ⟨c, statics, heap, heq, rfl, hcsuper, hflags, -, -, hnew⟩ <;> rw [heq]
    · exact h.mono h.separate rfl id
    have hnone := vtable_ite_interface file.flags.isInterface c.name (super.map (·.metadata))
    obtain ⟨vtable, hmetadata, -, -⟩ := Heap.newMetadata_spec hnone hnew
    have hgains := Heap.gains_newMetadata hnone hnew
    refine ⟨h.separate.newMetadata hpopulated.tabled hnone hnew, List.forall_mem_cons.2 ⟨?_, fun k hk => ?_⟩⟩
    · refine ⟨_, super, (hmetadata c.metadata).trans (if_pos rfl), ?_⟩
      have hinterface : c.isInterface = file.flags.isInterface := by rw [ClassInfo.isInterface, hflags]
      refine ⟨?_, ?_, hcsuper, fun k hk => List.mem_cons_of_mem _ (hsuper k hk), ?_⟩
      · simp only [hinterface]
        split <;> rfl
      · split <;> rfl
      · simp only [hinterface]
        split <;> rfl
    · obtain ⟨m, super, hm, hdescribes⟩ := h.metadata k hk
      exact ⟨m, super, hgains.metadata? hm,
        { hdescribes with super_mem := fun j hj => List.mem_cons_of_mem _ (hdescribes.super_mem j hj) }⟩
  | @defineArray object descriptor element elementType =>
    rcases hnew : s.heap.newMetadata
      { kind := if element.isSome then .objectArray else .primitiveArray, name := descriptor,
        parent := some object.metadata, element, elementType } with ⟨metadata, heap⟩
    have hgains := Heap.gains_newMetadata rfl hnew
    have hsame := (hgains.tabled hpopulated.tabled).metadata?_setVtable metadata (object.vtableContents metadata)
    simp only [defineArray, hnew]
    refine h.mono ((h.separate.newMetadata hpopulated.tabled rfl hnew).congr hsame) rfl fun hm => ?_
    rw [hsame]
    exact hgains.metadata? hm
  | designate => exact h.mono h.separate rfl id

theorem step (hstep : Step loader s s') (hpopulated : s.Populated) (h : s.Described) : s'.Described := by
  cases hstep with
  | change hchange => exact h.change hchange hpopulated
  | label => exact h.mono h.separate rfl id
  | string className slot units =>
    have hsame := (heap_stringObject className slot units s).1
    refine h.mono (h.separate.congr hsame) (by rw [stringObject_frame]) fun hm => ?_
    rw [hsame]
    exact hm
  | @fill c =>
    have hsame := hpopulated.tabled.metadata?_setVtable c.metadata (c.vtableContents c.metadata)
    refine h.mono (h.separate.congr hsame) rfl fun hm => ?_
    rw [fillVtable, hsame]
    exact hm

/-- Two classes have two metadata. -/
theorem eq_of_metadata_eq (h : s.Described) (hordered : ClassTable.Ordered s.classes.latest)
    (hc : c ∈ s.classes.latest) (hd : d ∈ s.classes.latest) (heq : c.metadata = d.metadata) : c = d := by
  obtain ⟨m, _, hm, hcm⟩ := h.metadata c hc
  obtain ⟨m', _, hm', hdm⟩ := h.metadata d hd
  rw [heq, hm'] at hm
  cases hm
  have hfind := hordered.find?_name hc
  rw [← hcm.name, hdm.name, hordered.find?_name hd] at hfind
  exact (Option.some.inj hfind).symm

/-! ### Filled vtables -/

/-- A vtable that was filled stays so. -/
theorem filled_step (hstep : Step loader s s') (hlinked : s.classes.Linked loader) (hpopulated : s.Populated)
    (h : s.Described) (hc : c ∈ s.classes.latest) (hfilled : s.Filled c) : s'.Filled c := by
  cases hstep with
  | change hchange =>
    cases hchange with
    | @define name file super =>
      rcases define_cases name file super s with ⟨_, heq⟩ | ⟨d, statics, heap, heq, -, -, -, -, -, hnew⟩ <;> rw [heq]
      · exact hfilled
      · have hnone := vtable_ite_interface file.flags.isInterface name (super.map (·.metadata))
        obtain ⟨-, -, -, hget⟩ := Heap.newMetadata_spec hnone hnew
        exact Heap.vtableEntries?_of_keeps (Heap.gains_newMetadata hnone hnew).metadata? hget hfilled
    | @defineArray object descriptor element elementType =>
      rcases hnew : s.heap.newMetadata
        { kind := if element.isSome then .objectArray else .primitiveArray, name := descriptor,
          parent := some object.metadata, element, elementType } with ⟨id, heap⟩
      obtain ⟨-, -, -, hget⟩ := Heap.newMetadata_spec rfl hnew
      have hgains := Heap.gains_newMetadata rfl hnew
      -- The metadata of the class was there before, so it is not that of the array type.
      have hne : id ≠ c.metadata := by
        obtain ⟨m, _, hm, -⟩ := h.metadata c hc
        rintro rfl
        exact absurd (Heap.metadata?_eq_some_iff.1 hm) (by rw [Heap.get?_of_newMetadata hnew]; nofun)
      simp only [Session.Filled, defineArray, hnew]
      exact Heap.vtableEntries?_setVtable_of_ne (hgains.tabled hpopulated.tabled)
        (h.separate.newMetadata hpopulated.tabled rfl hnew) hne
        (Heap.vtableEntries?_of_keeps hgains.metadata? hget hfilled)
    | designate => exact hfilled
  | label => exact hfilled
  | string className slot units =>
    obtain ⟨hsame, hget⟩ := heap_stringObject className slot units s
    exact Heap.vtableEntries?_of_keeps (fun hm => by rw [hsame]; exact hm) hget hfilled
  | @fill d hd =>
    by_cases heq : d.metadata = c.metadata
    · obtain rfl := h.eq_of_metadata_eq hlinked.ordered hd hc heq
      obtain ⟨m, v, _, hm, hv, -⟩ := Heap.vtableEntries?_eq_some_iff.1 hfilled
      exact Heap.vtableEntries?_setVtable hpopulated.tabled hm hv _
    · exact Heap.vtableEntries?_setVtable_of_ne hpopulated.tabled h.separate heq hfilled

end Described

theorem filled_fillVtable (hpopulated : s.Populated) (hc : c ∈ s.classes.latest) (hclass : ¬ c.isInterface) :
    (s.fillVtable c).Filled c := by
  obtain ⟨m, hm, hnone⟩ := hpopulated.vtables c hc
  cases hv : m.vtable with
  | none => exact absurd (hnone.1 hv) hclass
  | some v => exact Heap.vtableEntries?_setVtable hpopulated.tabled hm hv _

end Session

end JvmAot
