import JvmAot.Proofs.Session.Closing

/-! # Array types

Every array type of a session has metadata that says what its descriptor says (`IsArrayType`): what the elements are, and
that arrays inherit from the root class and dispatch like it, through a vtable of their own. All calls keep this
(`Reachable.canonical`), those that fail after they have added some dimensions of a type included. In an open session an
array type can be had whenever the class that its elements come down to can (`Canonical.resolveArray_ok_iff`). -/

namespace JvmAot

namespace FieldType

variable {t u : FieldType}

theorem toText_inj (ht : t.IsValid) (hu : u.IsValid) (h : t.toText = u.toText) : t = u := by
  have hparse := parse_toText ht
  rw [h, parse_toText hu] at hparse
  exact (Except.ok.inj hparse).symm

theorem toText_succ (t : FieldType) (n : Nat) :
    { t with dimension := n + 1 }.toText = "[" ++ { t with dimension := n }.toText := by
  rw [← String.toList_inj]
  simp [toText, chars, List.replicate_succ]

theorem exists_dimension (h : t.isArray) : ∃ n, t.dimension = n + 1 :=
  Nat.exists_eq_succ_of_ne_zero (Nat.ne_of_gt (by simpa [isArray] using h))

end FieldType

namespace Session

variable {loader : Loader} {s s' s₁ : Session} {c root : ClassInfo} {t leaf : FieldType} {m m' : Metadata}
  {d d' descriptor : String} {id id' : ObjectId} {dimension n : Nat}

/-! ### The metadata of one array type -/

/-- Metadata says what the elements of an array type are. Only arrays of one dimension can have primitive elements. -/
inductive Elements (s : Session) (t : FieldType) (m : Metadata) : Prop
  | primitive (hdimension : t.dimension = 1) (hbase : t.base ≠ .reference) (hkind : m.kind = .primitiveArray)
      (hnone : m.element = none) (htype : m.elementType = some t.base)
  | ofClass {c : ClassInfo} (hdimension : t.dimension = 1) (hbase : t.base = .reference)
      (hc : s.classes.find? (ClassName.slashed t.className) = some c) (hkind : m.kind = .objectArray)
      (helement : m.element = some c.metadata)
  | ofArray {n : Nat} {element : ObjectId} (hdimension : t.dimension = n + 2)
      (hlookup : s.arrays.lookup { t with dimension := n + 1 }.toText = some element) (hkind : m.kind = .objectArray)
      (helement : m.element = some element)

/-- Metadata is that of an array type, in a session with the given root class. -/
structure IsArrayType (s : Session) (root : ClassInfo) (t : FieldType) (id : ObjectId) (m : Metadata) : Prop where
  valid : t.IsValid
  metadata : s.heap.metadata? id = some m
  name : m.name = t.toText
  parent : m.parent = some root.metadata
  elements : s.Elements t m
  vtable : s.heap.vtableEntries? id = some (root.vtableContents id)

theorem Elements.mono (h : s.Elements t m) (hkeeps : s.Keeps s') : s'.Elements t m := by
  cases h with
  | primitive hdimension hbase hkind hnone htype => exact .primitive hdimension hbase hkind hnone htype
  | ofClass hdimension hbase hc hkind helement =>
    exact .ofClass hdimension hbase (hkeeps.find? _ _ hc) hkind helement
  | ofArray hdimension hlookup hkind helement =>
    exact .ofArray hdimension (hkeeps.arrays _ _ hlookup) hkind helement

theorem Elements.isArray (h : s.Elements t m) : t.isArray := by
  cases h <;> simp [FieldType.isArray, *]

theorem Elements.kind_iff (h : s.Elements t m) :
    m.kind = .primitiveArray ↔ t.dimension = 1 ∧ t.base ≠ .reference := by
  cases h <;> simp [*]

theorem Elements.kind_cases (h : s.Elements t m) : m.kind = .primitiveArray ∨ m.kind = .objectArray := by
  cases h <;> simp [*]

theorem Elements.of_primitive (h : s.Elements t m) (hkind : m.kind = .primitiveArray) :
    m.elementType = some t.base ∧ m.element = none := by
  cases h with
  | primitive _ _ _ hnone htype => exact ⟨htype, hnone⟩
  | ofClass _ _ _ hobject | ofArray _ _ hobject =>
    rw [hobject] at hkind
    cases hkind

theorem Elements.of_dimension (h : s.Elements t m) (hdimension : 1 < t.dimension) :
    ∃ inner element, t.toText = "[" ++ inner ∧ s.arrays.lookup inner = some element ∧ m.element = some element := by
  cases h with
  | primitive hone | ofClass hone => exact absurd hone (Nat.ne_of_gt hdimension)
  | @ofArray n element htwo hlookup _ helement =>
    refine ⟨_, element, ?_, hlookup, helement⟩
    rw [← FieldType.toText_succ, ← htwo]

theorem Elements.of_class (h : s.Elements t m) (hdimension : t.dimension = 1) (hbase : t.base = .reference) :
    ∃ c, s.classes.find? (ClassName.slashed t.className) = some c ∧ m.element = some c.metadata := by
  cases h with
  | primitive _ hprimitive => exact absurd hbase hprimitive
  | ofClass _ _ hc _ helement => exact ⟨_, hc, helement⟩
  | ofArray htwo =>
    rw [hdimension] at htwo
    cases htwo

theorem Keeps.metadata? (hkeeps : s.Keeps s') (hm : s.heap.metadata? id = some m) : s'.heap.metadata? id = some m :=
  Heap.metadata?_eq_some_iff.2 (hkeeps.heap _ _ (Heap.metadata?_eq_some_iff.1 hm))

theorem IsArrayType.mono (h : s.IsArrayType root t id m) (hkeeps : s.Keeps s') : s'.IsArrayType root t id m :=
  ⟨h.valid, hkeeps.metadata? h.metadata, h.name, h.parent, h.elements.mono hkeeps,
    Heap.vtableEntries?_of_keeps hkeeps.metadata? hkeeps.heap h.vtable⟩

/-- The place is that of the metadata of an array type with the given descriptor. -/
def HasArrayType (s : Session) (d : String) (id : ObjectId) : Prop :=
  ∃ root t m, s.classes.find? objectClass = some root ∧ t.toText = d ∧ s.IsArrayType root t id m

theorem HasArrayType.mono (h : s.HasArrayType d id) (hkeeps : s.Keeps s') : s'.HasArrayType d id := by
  obtain ⟨root, t, m, hroot, htext, htype⟩ := h
  exact ⟨root, t, m, hkeeps.find? _ _ hroot, htext, htype.mono hkeeps⟩

theorem metadata?_defineArray {element : Option ObjectId} {elementType : Option BaseType} (htabled : s.heap.Tabled)
    (h : s.defineArray root d element elementType = (id, s')) :
    (∃ v, s'.heap.metadata? id = some
      { kind := if element.isSome then .objectArray else .primitiveArray, name := d, parent := some root.metadata,
        element, elementType, vtable := some v }) ∧
      s'.heap.vtableEntries? id = some (root.vtableContents id) := by
  rcases hnew : s.heap.newMetadata
    { kind := if element.isSome then .objectArray else .primitiveArray, name := d, parent := some root.metadata,
      element, elementType } with ⟨id', heap⟩
  simp only [defineArray, hnew] at h
  obtain ⟨rfl, rfl⟩ := Prod.mk.inj h
  have hgains := Heap.gains_newMetadata rfl hnew
  obtain ⟨vtable, hmetadata, -⟩ := Heap.newMetadata_spec rfl hnew
  obtain ⟨m, hm, hnone⟩ := hgains.self
  rw [hmetadata, if_pos rfl] at hm
  cases hm
  -- Arrays are no interfaces, so there is a vtable.
  obtain ⟨v, rfl⟩ : ∃ v, vtable = some v := by
    cases vtable with
    | none =>
      have hkind := hnone.1 rfl
      split at hkind <;> cases hkind
    | some v => exact ⟨v, rfl⟩
  have hself := (hmetadata id').trans (if_pos rfl)
  have htabled' := hgains.tabled htabled
  refine ⟨⟨v, ?_⟩, Heap.vtableEntries?_setVtable htabled' hself rfl _⟩
  rw [htabled'.metadata?_setVtable]
  exact hself

/-! ### All array types of a session -/

/-- Every array type in the table has its metadata, under the one root class. -/
structure Canonical (loader : Loader) (s : Session) : Prop where
  resolved : s.Resolved loader
  rooted : ∀ c, s.object = some c → s.classes.find? objectClass = some c
  arrays : ∀ d id, s.arrays.lookup d = some id → s.HasArrayType d id

theorem Changes.resolved (h : Changes loader s s') (hs : s.Resolved loader) : s'.Resolved loader :=
  h.keep (P := Resolved loader) (fun hchange hs => (Step.change hchange).resolved hs) hs

/-- The root class that is set is the one that has the name. -/
theorem Changes.rooted (h : Changes loader s s') (hs : ∀ c, s.object = some c → s.classes.find? objectClass = some c) :
    ∀ c, s'.object = some c → s'.classes.find? objectClass = some c := by
  refine h.keep (P := fun s => ∀ c, s.object = some c → s.classes.find? objectClass = some c)
    (fun hchange hs c hc => ?_) hs
  cases hchange with
  | define hform hload hfresh hname hsuper =>
    rw [object_define] at hc
    exact (Change.define hform hload hfresh hname hsuper).find?_classes (hs c hc)
  | defineArray => exact hs c hc
  | designate hobject =>
    rcases hobject c hc with hc | hc
    · exact hs c hc
    · exact hc

namespace Canonical

theorem start : Canonical loader {} where
  resolved := Reachable.start.resolved
  rooted _ hc := by cases hc
  arrays _ _ hd := by cases hd

/-- Array types are as before if none is added. -/
theorem mono (h : s.Canonical loader) (hchanges : Changes loader s s') (harrays : s'.arrays = s.arrays) :
    s'.Canonical loader := by
  have hkeeps := hchanges.keeps fun d id hd => by rwa [harrays]
  refine ⟨hchanges.resolved h.resolved, hchanges.rooted h.rooted, fun d id hd => ?_⟩
  rw [harrays] at hd
  exact (h.arrays d id hd).mono hkeeps

theorem resolveClass {result : Except Failure ClassInfo} {name : String} (h : s.Canonical loader)
    (hclass : s.resolveClass loader name = (result, s')) : s'.Canonical loader :=
  h.mono (changes_resolveClass hclass) (arrays_resolveClass hclass)

/-- One array type is added, whose elements are there. -/
theorem defineArray {element : Option ObjectId} {elementType : Option BaseType} (h : s.Canonical loader)
    (hvalid : t.IsValid) (hobject : s.object = some root) (hfresh : s.arrays.lookup t.toText = none)
    (helements : ∀ m, m.kind = (if element.isSome then .objectArray else .primitiveArray) → m.element = element →
      m.elementType = elementType → s.Elements t m)
    (harray : s.defineArray root t.toText element elementType = (id, s')) : s'.Canonical loader := by
  obtain ⟨hchanges, -⟩ := changes_defineArray loader hobject harray
  have hkeeps := hchanges.keeps (Enters.define hfresh (fun _ _ hd => hd) harray).kept
  refine ⟨hchanges.resolved h.resolved, hchanges.rooted h.rooted, fun d' id' hd' => ?_⟩
  rw [lookup_defineArray harray] at hd'
  split at hd'
  · rename_i heq
    cases hd'
    obtain ⟨⟨v, hm⟩, hvtable⟩ := metadata?_defineArray h.resolved.populated.tabled harray
    exact ⟨root, t, _, hkeeps.find? _ _ (h.rooted root hobject), heq.symm, hvalid, hm, rfl, rfl,
      (helements _ rfl rfl rfl).mono hkeeps, hvtable⟩
  · exact (h.arrays d' id' hd').mono hkeeps

end Canonical

/-- An array type is not added on the way to one of fewer dimensions. -/
theorem lookup_resolveArrayOf (loader : Loader) (s : Session) (hvalid : leaf.IsValid) (hlt : dimension < n) :
    (resolveArrayOf loader leaf dimension s).2.arrays.lookup { leaf with dimension := n }.toText =
      s.arrays.lookup { leaf with dimension := n }.toText := by
  have hne (k : Nat) (hk : k < n) : { leaf with dimension := n }.toText ≠ { leaf with dimension := k }.toText := by
    intro htext
    have heq := FieldType.toText_inj (t := { leaf with dimension := n }) (u := { leaf with dimension := k }) hvalid hvalid
      htext
    exact Nat.ne_of_gt hk (congrArg FieldType.dimension heq)
  fun_induction resolveArrayOf loader leaf dimension s with
  | case1 | case2 | case3 => rfl
  | case4 s _ _ _ _ _ hclass => rw [arrays_resolveClass hclass]
  | case5 s _ _ _ _ _ hclass _ _ _ _ harray =>
    rw [lookup_defineArray harray, if_neg (hne _ hlt), arrays_resolveClass hclass]
  | case6 s _ _ _ _ _ _ _ harray => rw [lookup_defineArray harray, if_neg (hne _ hlt)]
  | case7 _ s _ _ _ _ _ _ _ helement ih =>
    rw [helement] at ih
    exact ih (Nat.lt_of_succ_lt hlt)
  | case8 _ s _ _ _ _ _ _ _ helement _ _ harray ih =>
    rw [helement] at ih
    rw [lookup_defineArray harray, if_neg (hne _ hlt)]
    exact ih (Nat.lt_of_succ_lt hlt)

theorem object_resolveArray (loader : Loader) (descriptor : String) (s : Session) :
    (s.resolveArray loader descriptor).2.object = s.object := by
  unfold resolveArray
  split
  · rfl
  split
  · rfl
  split
  · rfl
  split
  · exact (changes_resolveArrayOf ..).2
  · rfl

namespace Canonical

theorem resolveArrayOf (h : s.Canonical loader) (leaf : FieldType) (hvalid : leaf.IsValid) (hleaf : leaf.dimension = 0)
    (dimension : Nat) :
    (resolveArrayOf loader leaf dimension s).2.Canonical loader := by
  -- Each dimension is added after that of its elements, and the first one after the class of its elements.
  fun_induction Session.resolveArrayOf loader leaf dimension s with
  | case1 | case2 | case3 => exact h
  | case4 s _ _ _ _ _ hclass => exact h.resolveClass hclass
  | case5 s root hobject hreference c s₁ hclass id s₂ descriptor hfresh harray =>
    have hbase : leaf.base = .reference := by simpa [FieldType.isReference, FieldType.isArray, hleaf] using hreference
    refine (h.resolveClass hclass).defineArray (t := { leaf with dimension := 1 }) hvalid
      ((object_resolveClass hclass).trans hobject) ?_ (fun m hkind helement _ => ?_) harray
    · rw [arrays_resolveClass hclass]
      exact hfresh
    · exact .ofClass rfl hbase (find?_of_resolveClass hclass) hkind helement
  | case6 s root hobject hreference id s₁ descriptor hfresh harray =>
    have hbase : leaf.base ≠ .reference := fun hbase => hreference (by simp [FieldType.isReference, hbase])
    refine h.defineArray (t := { leaf with dimension := 1 }) hvalid hobject hfresh (fun m hkind hnone htype => ?_) harray
    exact .primitive rfl hbase hkind hnone htype
  | case7 _ s _ _ _ _ _ _ _ helement ih =>
    rw [helement] at ih
    exact ih h
  | case8 dimension s descriptor root hobject hfresh hpos element s₁ helement id s₂ harray ih =>
    obtain ⟨n, rfl⟩ := Nat.exists_eq_succ_of_ne_zero hpos
    have hinner := (enters_resolveArrayOf loader leaf (n + 1) s).self element
    have hkept : (Session.resolveArrayOf loader leaf (n + 1) s).2.object = s.object := (changes_resolveArrayOf ..).2
    have hfresh' := lookup_resolveArrayOf loader s (n := n + 2) hvalid (Nat.lt_succ_self (n + 1))
    rw [helement] at ih hinner hkept hfresh'
    refine (ih h).defineArray (t := { leaf with dimension := n + 2 }) hvalid (hkept.trans hobject) (hfresh'.trans hfresh)
      (fun m hkind hm _ => ?_) harray
    exact .ofArray rfl (hinner rfl) hkind hm

theorem resolveArray (h : s.Canonical loader) (descriptor : String) :
    (s.resolveArray loader descriptor).2.Canonical loader := by
  unfold Session.resolveArray
  split
  · exact h
  split
  · exact h
  split
  · exact h
  split
  · rename_i type hparse _
    exact h.resolveArrayOf { type with dimension := 0 } (FieldType.toText_of_parse hparse).2 rfl type.dimension
  · exact h

theorem resolveArrays (h : s.Canonical loader) (descriptors : List String) :
    (s.resolveArrays loader descriptors).2.Canonical loader ∧
      (s.resolveArrays loader descriptors).2.object = s.object := by
  induction descriptors generalizing s with
  | nil => exact ⟨h, rfl⟩
  | cons descriptor rest ih =>
    have hfirst := h.resolveArray descriptor
    have hobject := object_resolveArray loader descriptor s
    unfold Session.resolveArrays
    split
    · rename_i heq
      rw [heq] at hfirst hobject
      exact ⟨hfirst, hobject⟩
    · rename_i heq
      rw [heq] at hfirst hobject
      obtain ⟨hrest, hkept⟩ := ih hfirst
      exact ⟨hrest, hkept.trans hobject⟩

theorem bootstrap (h : s.Canonical loader) :
    (s.bootstrap loader).2.Canonical loader ∧
      ((s.bootstrap loader).1 = .ok () → ∃ root, (s.bootstrap loader).2.object = some root) := by
  rcases hobject : s.resolveClass loader objectClass with ⟨object, s₁⟩
  have h₁ : { s₁ with object := object.toOption }.Canonical loader :=
    (h.resolveClass hobject).mono (Change.changes <|
      .designate (fun _ hc => .inr (find?_resolveClass hobject (by cbv) hc)) (fun _ => .inl) fun _ => .inl) rfl
  rcases harray : { s₁ with object := object.toOption }.resolveClass loader arrayClass with ⟨array, s₂⟩
  have h₂ : { s₂ with array := array.toOption }.Canonical loader :=
    (h₁.resolveClass harray).mono (Change.changes <|
      .designate (fun _ => .inl) (fun _ hc => .inr (find?_resolveClass harray (by cbv) hc)) fun _ => .inl) rfl
  rcases hstring : { s₂ with array := array.toOption }.resolveClass loader stringClass with ⟨string, s₃⟩
  have h₃ : { s₃ with string := string.toOption }.Canonical loader :=
    (h₂.resolveClass hstring).mono (Change.changes <|
      .designate (fun _ => .inl) (fun _ => .inl) fun _ hc => .inr (find?_resolveClass hstring (by cbv) hc)) rfl
  simp only [Session.bootstrap, hobject, harray, hstring]
  cases object with
  | error => exact ⟨h₁, by simp⟩
  | ok root =>
    cases array with
    | error => exact ⟨h₂, by simp⟩
    | ok =>
      cases string with
      | error => exact ⟨h₃, by simp⟩
      | ok =>
        obtain ⟨h₄, hkept⟩ := h₃.resolveArrays (primitiveArrays ++ [Heap.vtableType])
        have hroot : s₃.object = some root := (object_resolveClass hstring).trans (object_resolveClass harray)
        exact ⟨h₄, fun _ => ⟨root, hkept.trans hroot⟩⟩

theorem close (h : s.Canonical loader) : s.close.Canonical loader := by
  have hkeeps : s.Keeps s.close := ⟨List.prefix_refl _, fun _ _ h => h, fun _ _ h => h, fun _ _ h => h⟩
  exact ⟨h.resolved.close, h.rooted, fun d id hd => (h.arrays d id hd).mono hkeeps⟩

end Canonical

/-- Whatever calls were made, failed ones included. -/
theorem Reachable.canonical (h : s.Reachable loader) : s.Canonical loader := by
  induction h with
  | start => exact .start
  | bootstrap _ ih => exact ih.bootstrap.1
  | resolveClass _ name ih => exact ih.resolveClass rfl
  | resolveArray _ descriptor ih => exact ih.resolveArray descriptor
  | close _ ih => exact ih.close

/-! ### Which array types can be had -/

namespace Canonical

theorem isArrayType (h : s.Canonical loader) (hvalid : t.IsValid) (hlookup : s.arrays.lookup t.toText = some id) :
    ∃ root m, s.classes.find? objectClass = some root ∧ s.IsArrayType root t id m := by
  obtain ⟨root, u, m, hroot, htext, htype⟩ := h.arrays _ _ hlookup
  obtain rfl := FieldType.toText_inj htype.valid hvalid htext
  exact ⟨root, m, hroot, htype⟩

theorem resolveClass_of_find? {name : String} (h : s.Canonical loader)
    (hc : s.classes.find? (ClassName.slashed name) = some c) : s.resolveClass loader name = (.ok c, s) :=
  resolveClass_of_mem h.resolved.defined.linked (ClassTable.mem_of_find? hc) (ClassTable.name_of_find? hc).symm

/-- The class that the elements of an array type come down to, if any, is there as long as the type is. -/
theorem leaf_of_lookup (h : s.Canonical loader) (hvalid : leaf.IsValid)
    (hlookup : s.arrays.lookup { leaf with dimension := n + 1 }.toText = some id) :
    leaf.base ≠ .reference ∨ ∃ c, (s.resolveClass loader leaf.className).1 = .ok c := by
  induction n generalizing id with
  | zero =>
    obtain ⟨_, _, _, htype⟩ := h.isArrayType (t := { leaf with dimension := 1 }) hvalid hlookup
    cases htype.elements with
    | primitive _ hbase => exact .inl hbase
    | ofClass _ _ hc => exact .inr ⟨_, congrArg Prod.fst (h.resolveClass_of_find? hc)⟩
    | ofArray hdimension => cases hdimension
  | succ n ih =>
    obtain ⟨_, _, _, htype⟩ := h.isArrayType (t := { leaf with dimension := n + 2 }) hvalid hlookup
    cases htype.elements with
    | primitive hdimension | ofClass hdimension => cases hdimension
    | ofArray hdimension hinner =>
      cases hdimension
      exact ih hinner

theorem resolveArrayOf_ok_iff (h : s.Canonical loader) (leaf : FieldType) (hvalid : leaf.IsValid)
    (hleaf : leaf.dimension = 0) (hobject : s.object = some root) (n : Nat) :
    (∃ id, (Session.resolveArrayOf loader leaf (n + 1) s).1 = .ok id) ↔
      leaf.base ≠ .reference ∨ ∃ c, (s.resolveClass loader leaf.className).1 = .ok c := by
  rw [Session.resolveArrayOf]
  split
  · rename_i hlookup
    exact iff_of_true ⟨_, rfl⟩ (h.leaf_of_lookup hvalid hlookup)
  · rename_i hnone
    rw [hobject] at hnone
    cases hnone
  · cases n with
    | zero =>
      rw [if_pos rfl]
      by_cases hbase : leaf.base = .reference
      · rw [if_pos (by simp [FieldType.isReference, hbase])]
        rcases s.resolveClass loader leaf.className with ⟨failure | c, s₁⟩
        · simp [hbase]
        · simp
      · rw [if_neg (by simp [FieldType.isReference, FieldType.isArray, hleaf, hbase])]
        exact iff_of_true ⟨_, rfl⟩ (.inl hbase)
    | succ n =>
      rw [if_neg (Nat.succ_ne_zero n), ← h.resolveArrayOf_ok_iff leaf hvalid hleaf hobject n]
      rcases Session.resolveArrayOf loader leaf (n + 1) s with ⟨failure | element, s₁⟩
      · simp
      · simp

/-- In an open session with a root class, array types can be had exactly if the classes of their elements can. -/
theorem resolveArray_ok_iff (h : s.Canonical loader) (hopen : ¬ s.isClosed) (hobject : s.object = some root)
    (d : String) :
    (∃ id, (s.resolveArray loader d).1 = .ok id) ↔
      ∃ t, FieldType.parse d = .ok t ∧ t.isArray ∧
        (t.base ≠ .reference ∨ ∃ c, (s.resolveClass loader t.className).1 = .ok c) := by
  unfold Session.resolveArray
  split
  · rename_i id hlookup
    refine iff_of_true ⟨id, rfl⟩ ?_
    obtain ⟨_, t, m, _, rfl, htype⟩ := h.arrays d id hlookup
    refine ⟨t, FieldType.parse_toText htype.valid, htype.elements.isArray, ?_⟩
    obtain ⟨n, hn⟩ := FieldType.exists_dimension htype.elements.isArray
    exact h.leaf_of_lookup (n := n) htype.valid (by rw [← hn]; exact hlookup)
  rw [if_neg hopen]
  split
  · rename_i hparse
    simp [hparse]
  rename_i t hparse
  by_cases harray : t.isArray
  · obtain ⟨n, hn⟩ := FieldType.exists_dimension harray
    have hiff := h.resolveArrayOf_ok_iff { t with dimension := 0 } (FieldType.toText_of_parse hparse).2 rfl hobject n
    rw [if_pos harray, hn, hiff]
    simp [hparse, harray]
  · simp [hparse, harray]

/-! ### One metadata for each array type -/

/-- No two array types share a vtable. -/
theorem eq_of_vtable {v : ObjectId} (h : s.Canonical loader) (hd : s.arrays.lookup d = some id)
    (hd' : s.arrays.lookup d' = some id') (hm : s.heap.metadata? id = some m) (hm' : s.heap.metadata? id' = some m')
    (hv : m.vtable = some v) (hv' : m'.vtable = some v) : d' = d := by
  obtain rfl := h.resolved.described.separate id id' m m' v hm hm' hv hv'
  obtain ⟨_, t, m₁, _, rfl, htype⟩ := h.arrays d id hd
  obtain ⟨_, t', m₂, _, rfl, htype'⟩ := h.arrays d' id hd'
  obtain rfl : m₂ = m₁ := Option.some.inj (htype'.metadata.symm.trans htype.metadata)
  exact htype'.name.symm.trans htype.name

/-- No array type shares its vtable with a class. -/
theorem vtable_ne_of_class {v : ObjectId} (h : s.Canonical loader) (hd : s.arrays.lookup d = some id)
    (hc : c ∈ s.classes.latest) (hm : s.heap.metadata? id = some m) (hm' : s.heap.metadata? c.metadata = some m')
    (hv : m.vtable = some v) : m'.vtable ≠ some v := by
  intro hv'
  have hid := h.resolved.described.separate id c.metadata m m' v hm hm' hv hv'
  obtain ⟨_, _, m₁, _, _, htype⟩ := h.arrays d id hd
  obtain ⟨m₂, _, hm₂, hdescribes⟩ := h.resolved.described.metadata c hc
  rw [← hid, htype.metadata] at hm₂
  cases hm₂
  have hkind := hdescribes.kind
  rcases htype.elements.kind_cases with harray | harray <;> rw [harray] at hkind <;> split at hkind <;> cases hkind

end Canonical

/-! ### Calls after the start -/

theorem object_after (loader : Loader) (calls : List Call) (s : Session) : (s.after loader calls).object = s.object := by
  induction calls generalizing s with
  | nil => rfl
  | cons call rest ih =>
    refine (ih _).trans ?_
    cases call with
    | resolveClass name => exact object_resolveClass rfl
    | resolveArray descriptor => exact object_resolveArray loader descriptor s
    | close => rfl

theorem isOpen_after (loader : Loader) (calls : List Call) (hcalls : .close ∉ calls) (hopen : ¬ s.isClosed) :
    ¬ (s.after loader calls).isClosed := by
  induction calls generalizing s with
  | nil => exact hopen
  | cons call rest ih =>
    refine ih (fun hmem => hcalls (List.mem_cons_of_mem _ hmem)) ?_
    cases call with
    | resolveClass name => exact (changes_resolveClass rfl).steps.isOpen hopen
    | resolveArray descriptor => exact (changes_resolveArray ..).steps.isOpen hopen
    | close => exact absurd (List.mem_cons_self ..) hcalls

/-- After a start that succeeded, whatever is resolved and whatever fails to be: each descriptor in the table is that of
an array type, and its metadata has the elements that it says, the root class as parent, and a vtable that is not shared
with any other array type or class. The vtable begins with the metadata and goes on as that of the root class. And an
array type can be had exactly if its descriptor is one and its elements are primitive or come down to a class that can
be had. -/
theorem Reachable.array_types_canonical {s₂ : Session} (h : s.Reachable loader) (hopen : ¬ s.isClosed)
    (hstart : s.bootstrap loader = (.ok (), s₁)) (calls : List Call) (hcalls : .close ∉ calls)
    (hafter : s₁.after loader calls = s₂) :
    ∃ root, s₂.object = some root ∧ s₂.classes.find? objectClass = some root ∧
      (∀ d id, s₂.arrays.lookup d = some id → ∃ t m v entries,
        FieldType.parse d = .ok t ∧ t.isArray ∧
        s₂.heap.metadata? id = some m ∧ m.name = d ∧ m.parent = some root.metadata ∧
        (m.kind = .primitiveArray ↔ t.dimension = 1 ∧ t.base ≠ .reference) ∧
        (m.kind = .primitiveArray → m.elementType = some t.base ∧ m.element = none) ∧
        (m.kind ≠ .primitiveArray → m.kind = .objectArray) ∧
        (1 < t.dimension → ∃ inner element, d = "[" ++ inner ∧ s₂.arrays.lookup inner = some element ∧
          m.element = some element) ∧
        (t.dimension = 1 → t.base = .reference → ∃ c, s₂.resolveClass loader t.className = (.ok c, s₂) ∧
          m.element = some c.metadata) ∧
        m.vtable = some v ∧ s₂.heap.vtableEntries? id = some entries ∧ entries[0]? = some (.object id) ∧
        (∀ i, entries[i + 1]? = root.vtable.methods[i]?.map DeclaredMethod.vtableEntry) ∧
        (∀ d' id' m', d' ≠ d → s₂.arrays.lookup d' = some id' → s₂.heap.metadata? id' = some m' →
          m'.vtable ≠ some v) ∧
        ∀ c ∈ s₂.classes.order, ∀ m', s₂.heap.metadata? c.metadata = some m' → m'.vtable ≠ some v) ∧
      ∀ d, (∃ id, (s₂.resolveArray loader d).1 = .ok id) ↔
        ∃ t, FieldType.parse d = .ok t ∧ t.isArray ∧
          (t.base ≠ .reference ∨ ∃ c, (s₂.resolveClass loader t.className).1 = .ok c) := by
  have h₁ := h.bootstrap
  obtain ⟨root, hroot⟩ := h.canonical.bootstrap.2 (by rw [hstart])
  have hopen₁ := (changes_bootstrap loader s).steps.isOpen hopen
  rw [hstart] at h₁ hroot hopen₁
  have hcanonical := (h₁.after calls).canonical
  have hobject := (object_after loader calls s₁).trans hroot
  have hopen₂ := isOpen_after loader calls hcalls hopen₁
  rw [hafter] at hcanonical hobject hopen₂
  have hfind := hcanonical.rooted root hobject
  refine ⟨root, hobject, hfind, fun d id hd => ?_, hcanonical.resolveArray_ok_iff hopen₂ hobject⟩
  obtain ⟨root', t, m, hroot', rfl, htype⟩ := hcanonical.arrays d id hd
  obtain rfl : root' = root := Option.some.inj (hroot'.symm.trans hfind)
  obtain ⟨_, v, _, hm, hv, -⟩ := Heap.vtableEntries?_eq_some_iff.1 htype.vtable
  obtain rfl := Option.some.inj (hm.symm.trans htype.metadata)
  refine ⟨t, _, v, _, FieldType.parse_toText htype.valid, htype.elements.isArray, hm, htype.name, htype.parent,
    htype.elements.kind_iff, htype.elements.of_primitive, htype.elements.kind_cases.resolve_left,
    htype.elements.of_dimension, fun hdimension hbase => ?_, hv, htype.vtable, rfl, fun i => ?_,
    fun d' id' m' hne hd' hm' hv' => ?_, fun c hc m' hm' => ?_⟩
  · obtain ⟨c, hc, helement⟩ := htype.elements.of_class hdimension hbase
    exact ⟨c, hcanonical.resolveClass_of_find? hc, helement⟩
  · simp [ClassInfo.vtableContents, Vtable.build, Vtable.methods, Function.comp_def]
  · exact hne (hcanonical.eq_of_vtable hd hd' hm hm' hv hv')
  · exact hcanonical.vtable_ne_of_class hd (ClassTable.mem_order.1 hc) hm hm' hv

/-- The root class has a native and an abstract method here. -/
def callableTallies : Loader where
  load name := (tallies.load name).map fun file =>
    if name = objectClass then
      { file with methods := [{ flags := ⟨0x0101⟩, name := "hashCode", descriptor := "()I", code := none },
        { flags := ⟨0x0401⟩, name := "clone", descriptor := "()Ljava/lang/Object;", code := none }] }
    else file
  limit := tallies.limit

/-- Calls of which the second one fails. -/
def arrayCalls : List Call :=
  [.resolveArray "[[LTally;", .resolveArray "[[LLost;", .resolveClass "Ledger"]

/-- The session after a start and these calls. -/
def tallyArrays : Session :=
  (({} : Session).bootstrap callableTallies).2.after callableTallies arrayCalls

theorem tally_arrays_dispatch :
    ∃ id element m, tallyArrays.arrays.lookup "[[LTally;" = some id ∧
      tallyArrays.arrays.lookup "[LTally;" = some element ∧ tallyArrays.heap.metadata? id = some m ∧
      m.kind = .objectArray ∧ m.element = some element ∧
      tallyArrays.heap.vtableEntries? id = some [.object id, .symbol "java_lang_Object_hashCode__I", .null] ∧
      (∃ id', (tallyArrays.resolveArray callableTallies "[[LLedger;").1 = .ok id') ∧
      ¬ ∃ id', (tallyArrays.resolveArray callableTallies "[[LLost;").1 = .ok id' := by
  obtain ⟨hsome, hid, hentries, hledger, hlost⟩ : (({} : Session).bootstrap callableTallies).1 = .ok () ∧
      tallyArrays.arrays.lookup "[[LTally;" = some 29 ∧
      tallyArrays.heap.vtableEntries? 29 = some [.object 29, .symbol "java_lang_Object_hashCode__I", .null] ∧
      (tallyArrays.resolveClass callableTallies "Ledger").1.isOk ∧
      (tallyArrays.resolveClass callableTallies "Lost").1 = .error (Cause.classNotFound "Lost" : Failure) := by
    decide +kernel
  obtain ⟨root, -, -, htypes, hiff⟩ :=
    Reachable.start.array_types_canonical (by decide) (Prod.ext hsome rfl) arrayCalls (by decide) (rfl : _ = tallyArrays)
  obtain ⟨t, m, _, _, hparse, _, hm, _, _, hkind, _, hobject, hinner, _⟩ := htypes "[[LTally;" 29 hid
  have htype : FieldType.parse "[[LTally;" = .ok ⟨2, .reference, "Tally"⟩ := by decide +kernel
  obtain rfl := Except.ok.inj (hparse.symm.trans htype)
  obtain ⟨inner, element, htext, hlookup, helement⟩ := hinner (by decide)
  obtain rfl : "[LTally;" = inner := by
    have htail := congrArg (List.drop 1 ∘ String.toList) htext
    simpa [← String.toList_inj] using htail
  refine ⟨29, element, m, hid, hlookup, hm, hobject fun hprimitive => ?_, helement, hentries,
    (hiff _).2 ⟨⟨2, .reference, "Ledger"⟩, by decide +kernel, by decide, .inr ?_⟩, fun hresolved => ?_⟩
  · cases (hkind.1 hprimitive).1
  · cases hclass : (tallyArrays.resolveClass callableTallies "Ledger").1 with
    | ok c => exact ⟨c, rfl⟩
    | error =>
      rw [hclass] at hledger
      cases hledger
  · obtain ⟨t, hparse, -, hleaf⟩ := (hiff _).1 hresolved
    have htype : FieldType.parse "[[LLost;" = .ok ⟨2, .reference, "Lost"⟩ := by decide +kernel
    obtain rfl := Except.ok.inj (hparse.symm.trans htype)
    rcases hleaf with hprimitive | ⟨c, hc⟩
    · exact hprimitive rfl
    · cases hc.symm.trans hlost

end Session

end JvmAot
