import JvmAot.Proofs.Lowering.Failures
import JvmAot.Proofs.Session.Memo

/-! # What a failed resolution leaves behind

The resolution of a class can fail after some of its superclasses were added. These stay (`Grown`), and nothing else
does but storage. At most one class on the way up can fail on its own descriptors (`Aborted.unique`). Its static fields
before the first bad field descriptor have taken their places in the pool by then, and keep them (`staticTypes`). If
resolution fails for another reason, nothing is lost. -/

namespace JvmAot

/-! ### The pool of static fields -/

/-- The layout after storage was given out for fields of the given types. -/
def FieldLayout.advance (l : FieldLayout) (types : List FieldType) : FieldLayout :=
  types.foldl (fun l t => (l.allocate t).2) l

theorem FieldLayout.advance_append (l : FieldLayout) (types more : List FieldType) :
    l.advance (types ++ more) = (l.advance types).advance more :=
  List.foldl_append

/-- The types of the static fields among some declarations, up to the first field whose type cannot be read. -/
def staticTypes : List FieldDecl → List FieldType
  | [] => []
  | f :: rest =>
    match FieldType.parse f.descriptor with
    | .error _ => []
    | .ok type => if f.flags.isStatic then type :: staticTypes rest else staticTypes rest

/-- The types of the static fields of a class. -/
def ClassInfo.staticTypes (c : ClassInfo) : List FieldType :=
  (c.fields.filter (·.flags.isStatic)).map (·.type)

theorem map_eq_error {α β : Type} {result : Except Failure α} {f : α → β} {failure : Failure}
    (h : result.map f = .error failure) : result = .error failure := by
  cases result with
  | error => cases h; rfl
  | ok => cases h

section
variable {owner : String} {decls : List FieldDecl} {fields : List FieldInfo} {layout : FieldLayout}
  {statics : FieldAllocator} {failure : Failure}

theorem staticTypes_of_declared (h : List.Forall₂ (FieldInfo.Declared owner) decls fields) :
    staticTypes decls = (fields.filter (·.flags.isStatic)).map (·.type) := by
  induction h with
  | nil => rfl
  | @cons d f decls fields hf _ ih =>
    rw [staticTypes, hf.type]
    by_cases hstatic : d.flags.isStatic
    · have hstatic' : f.flags.isStatic := hf.flags ▸ hstatic
      simp [hstatic, hstatic', ih]
    · have hstatic' : ¬ f.flags.isStatic := hf.flags ▸ hstatic
      simp [hstatic, hstatic', ih]

/-- In a pool that is open, storage fails for a field only if its type cannot be read. -/
theorem allocateFields_cons_cases (owner : String) (f : FieldDecl) (decls : List FieldDecl) (layout : FieldLayout)
    (hopen : statics.isSealed = false) :
    (∃ failure, FieldType.parse f.descriptor = .error failure ∧
      allocateFields owner (f :: decls) layout statics = (.error failure, statics)) ∨
    ∃ type info layout₁ statics₁, FieldType.parse f.descriptor = .ok type ∧
      statics₁ = (if f.flags.isStatic then { statics with layout := (statics.layout.allocate type).2 } else statics) ∧
      allocateFields owner (f :: decls) layout statics =
        ((allocateFields owner decls layout₁ statics₁).1.map fun p => (info :: p.1, p.2),
          (allocateFields owner decls layout₁ statics₁).2) := by
  rw [allocateFields]
  cases hparse : FieldType.parse f.descriptor with
  | error failure => exact .inl ⟨failure, rfl, rfl⟩
  | ok type =>
    refine .inr ?_
    by_cases hstatic : f.flags.isStatic
    · refine ⟨type, { owner, name := f.name, flags := f.flags, type, offset := (statics.layout.allocate type).1 }, layout,
        _, rfl, (if_pos hstatic).symm, ?_⟩
      simp only [FieldAllocator.allocate, FieldAllocator.take, hopen, if_pos hstatic]
      rfl
    · refine ⟨type, { owner, name := f.name, flags := f.flags, type, offset := (layout.allocate type).1 },
        (layout.allocate type).2, _, rfl, (if_neg hstatic).symm, ?_⟩
      simp only [if_neg hstatic]

/-- Whether or not all fields get storage, the pool has given out that of the static fields up to a failure. -/
theorem statics_allocateFields (owner : String) (decls : List FieldDecl) (layout : FieldLayout)
    (hopen : statics.isSealed = false) :
    (allocateFields owner decls layout statics).2 =
      { statics with layout := statics.layout.advance (staticTypes decls) } := by
  induction decls generalizing layout statics with
  | nil => rfl
  | cons f decls ih =>
    rw [staticTypes]
    rcases allocateFields_cons_cases owner f decls layout hopen with
      ⟨failure, hparse, heq⟩ | ⟨type, info, layout₁, statics₁, hparse, rfl, heq⟩ <;> rw [heq, hparse]
    · rfl
    · by_cases hstatic : f.flags.isStatic
      · simp only [if_pos hstatic]
        exact ih _ hopen
      · simp only [if_neg hstatic]
        exact ih _ hopen

theorem parse_of_allocateFields_error (hopen : statics.isSealed = false)
    (h : (allocateFields owner decls layout statics).1 = .error failure) :
    ∃ f ∈ decls, FieldType.parse f.descriptor = .error failure := by
  induction decls generalizing layout statics with
  | nil => cases h
  | cons f decls ih =>
    rcases allocateFields_cons_cases owner f decls layout hopen with
      ⟨failure', hparse, heq⟩ | ⟨type, info, layout₁, statics₁, hparse, hstatics, heq⟩ <;> rw [heq] at h
    · cases h
      exact ⟨f, List.mem_cons_self .., hparse⟩
    · have hopen₁ : statics₁.isSealed = false := by
        rw [hstatics]
        split <;> exact hopen
      obtain ⟨g, hg, hfailure⟩ := ih hopen₁ (map_eq_error h)
      exact ⟨g, List.mem_cons_of_mem _ hg, hfailure⟩

theorem parse_of_allocateMethods_error {index : Nat} {methods : List MethodDecl} {vtable : Vtable DeclaredMethod}
    (h : allocateMethods owner index methods vtable = .error failure) :
    ∃ m ∈ methods, MethodType.parse m.descriptor = .error failure := by
  induction methods generalizing index vtable with
  | nil => cases h
  | cons m methods ih =>
    rw [allocateMethods] at h
    cases hparse : MethodType.parse m.descriptor with
    | error failure' =>
      rw [hparse] at h
      cases h
      exact ⟨m, List.mem_cons_self .., hparse⟩
    | ok type =>
      rw [hparse] at h
      obtain ⟨g, hg, hfailure⟩ := ih (map_eq_error h)
      exact ⟨g, List.mem_cons_of_mem _ hg, hfailure⟩

end

/-! ### The heap -/

/-- Metadata brings at most its own vtable along. -/
theorem Heap.get?_of_get?_newMetadata {h h' : Heap} {m : Metadata} {id i : ObjectId} {o : Object}
    (heq : h.newMetadata m = (id, h')) (hget : h'.get? i = some o) :
    h.get? i = some o ∨ i = id ∨ h'.vtable id = .object i := by
  unfold newMetadata at heq
  split at heq
  · obtain rfl : id = h.objects.size := (congrArg Prod.fst heq).symm
    obtain rfl : h' = (h.allocate (.metadata m)).2 := (congrArg Prod.snd heq).symm
    rw [get?_allocate] at hget
    split at hget
    · exact .inr (.inl ‹_›)
    · exact .inl hget
  · rcases hallocate : h.allocate (.objectArray vtableType []) with ⟨v, h₁⟩
    rw [hallocate] at heq
    obtain rfl : id = h₁.objects.size := (congrArg Prod.fst heq).symm
    obtain rfl : h' = (h₁.allocate (.metadata { m with vtable := some v })).2 := (congrArg Prod.snd heq).symm
    rw [get?_allocate] at hget
    split at hget
    · exact .inr (.inl ‹_›)
    -- What is left is the vtable that was made for the metadata, or was there before.
    obtain rfl : h₁ = (h.allocate (.objectArray vtableType [])).2 := by rw [hallocate]
    obtain rfl : v = h.objects.size := (congrArg Prod.fst hallocate).symm
    rw [get?_allocate] at hget
    split at hget
    · rename_i hi
      refine .inr (.inr ?_)
      rw [vtable, metadata?_allocate, if_pos rfl, hi]
      rfl
    · exact .inl hget

theorem Heap.vtable_of_kept {h h' : Heap} {id v : ObjectId} (hkept : ∀ i o, h.get? i = some o → h'.get? i = some o)
    (hv : h.vtable id = .object v) : h'.vtable id = .object v := by
  unfold vtable at hv ⊢
  cases hm : h.metadata? id with
  | none =>
    rw [hm] at hv
    cases hv
  | some m =>
    rw [metadata?_eq_some_iff.2 (hkept id _ (metadata?_eq_some_iff.1 hm)), ← hm]
    exact hv

namespace Session

variable {loader : Loader} {s s' s'' : Session} {name n : String} {file : ClassFile} {super : Option ClassInfo}
  {failure : Failure} {published more : List ClassInfo} {lost : List FieldType}

/-! ### Growth -/

/-- Some classes were added, with their static fields and their objects. Besides, the pool has given out storage for
fields of the types `lost`. -/
structure Grown (s s' : Session) (published : List ClassInfo) (lost : List FieldType) : Prop where
  order : s'.classes.order = s.classes.order ++ published
  statics : s'.statics =
    { s.statics with layout := s.statics.layout.advance (published.flatMap ClassInfo.staticTypes ++ lost) }
  heap : ∀ i o, s.heap.get? i = some o → s'.heap.get? i = some o
  heap_new : ∀ i o, s'.heap.get? i = some o → s.heap.get? i = some o ∨
    ∃ c ∈ published, i = c.metadata ∨ s'.heap.vtable c.metadata = .object i
  frame : s' = { s with classes := s'.classes, statics := s'.statics, heap := s'.heap }

theorem Grown.refl : Grown s s [] [] :=
  ⟨(List.append_nil _).symm, rfl, fun _ _ h => h, fun _ _ h => .inl h, rfl⟩

theorem Grown.trans (h : Grown s s' published []) (h' : Grown s' s'' more lost) :
    Grown s s'' (published ++ more) lost := by
  refine ⟨?_, ?_, fun i o ho => h'.heap i o (h.heap i o ho), fun i o ho => ?_, ?_⟩
  · rw [h'.order, h.order, List.append_assoc]
  · simp only [h'.statics, h.statics, List.append_nil, List.flatMap_append, FieldLayout.advance_append]
  · rcases h'.heap_new i o ho with ho | ⟨c, hc, hi⟩
    · rcases h.heap_new i o ho with ho | ⟨c, hc, hi⟩
      · exact .inl ho
      · exact .inr ⟨c, List.mem_append_left _ hc, hi.imp_right (Heap.vtable_of_kept h'.heap)⟩
    · exact .inr ⟨c, List.mem_append_right _ hc, hi⟩
  · rw [h'.frame, h.frame]

theorem Grown.set_resolving (h : Grown s s' published lost) (before after : List String)
    (hs : s = { s'' with resolving := before }) (hafter : s''.resolving = after) :
    Grown s'' { s' with resolving := after } published lost := by
  subst hs hafter
  refine ⟨h.order, h.statics, h.heap, h.heap_new, ?_⟩
  conv_lhs => rw [h.frame]

theorem Grown.isClosed_eq (h : Grown s s' published lost) : s'.isClosed = s.isClosed := by
  rw [isClosed, h.statics, isClosed]

/-! ### Adding a class -/

/-- A field or a method has a descriptor that cannot be read. -/
def Unreadable (file : ClassFile) (failure : Failure) : Prop :=
  (∃ f ∈ file.fields, FieldType.parse f.descriptor = .error failure) ∨
    ∃ m ∈ file.methods, MethodType.parse m.descriptor = .error failure

theorem Unreadable.isOfLowering (h : Unreadable file failure) : failure.cause.isOfLowering = true := by
  rcases h with ⟨f, -, hparse⟩ | ⟨m, -, hparse⟩
  · exact FieldType.isOfLowering_of_parse hparse
  · exact MethodType.isOfLowering_of_parse hparse

theorem define_unreadable (hopen : ¬ s.isClosed) (h : (s.define name file super).1 = .error failure) :
    Unreadable file failure := by
  have hopen : s.statics.isSealed = false := by simpa [isClosed] using hopen
  simp only [define] at h
  cases hfields : (allocateFields name file.fields ((super.map (·.layout)).getD {}) s.statics).1 with
  | error failure' =>
    rw [hfields] at h
    cases h
    exact .inl (parse_of_allocateFields_error hopen hfields)
  | ok allocated =>
    rw [hfields] at h
    cases hmethods : allocateMethods name 0 file.methods ((super.map (·.vtable)).getD {}) with
    | error failure' =>
      simp only [hmethods] at h
      cases h
      exact .inr (parse_of_allocateMethods_error hmethods)
    | ok table =>
      simp only [hmethods] at h
      cases h

theorem classes_define_of_error (h : (s.define name file super).1 = .error failure) :
    (s.define name file super).2.classes = s.classes := by
  rcases define_cases name file super s with ⟨_, heq⟩ | ⟨_, _, _, heq, -⟩
  · rw [heq]
  · rw [heq] at h
    cases h

theorem grown_define (name : String) (file : ClassFile) (super : Option ClassInfo) (hopen : ¬ s.isClosed) :
    (∃ failure, (s.define name file super).1 = .error failure ∧ Unreadable file failure ∧
      Grown s (s.define name file super).2 [] (staticTypes file.fields)) ∨
    ∃ c, (s.define name file super).1 = .ok c ∧ c.name = name ∧ Grown s (s.define name file super).2 [c] [] := by
  have hsealed : s.statics.isSealed = false := by simpa [isClosed] using hopen
  have hstatics := statics_allocateFields name file.fields ((super.map (·.layout)).getD {}) hsealed
  rcases define_cases name file super s with ⟨failure, heq⟩ | ⟨c, statics, heap, heq, hname, -, -, hfields, -, hnew⟩
  · refine .inl ⟨failure, by rw [heq], define_unreadable hopen (by rw [heq]), ?_⟩
    rw [heq]
    exact ⟨(List.append_nil _).symm, hstatics, fun _ _ h => h, fun _ _ h => .inl h, rfl⟩
  · refine .inr ⟨c, by rw [heq], hname, ?_⟩
    have htypes : staticTypes file.fields = c.staticTypes :=
      staticTypes_of_declared (declared_allocateFields hfields)
    rw [hfields, htypes] at hstatics
    obtain ⟨-, -, -, hkept⟩ := Heap.newMetadata_spec (vtable_ite_interface ..) hnew
    rw [heq]
    refine ⟨by simp [ClassTable.order, ClassTable.insert], ?_, hkept, fun i o ho => ?_, rfl⟩
    · simpa using hstatics
    · exact (Heap.get?_of_get?_newMetadata hnew ho).imp_right fun hi => ⟨c, List.mem_singleton.2 rfl, hi⟩

/-! ### Resolving a class -/

/-- The class `m` is the superclass of the class `n`. -/
def SuperOf (loader : Loader) (n m : String) : Prop :=
  ∃ file superName, loader.load n = .ok file ∧ file.superName = some superName ∧ m = ClassName.slashed superName

theorem SuperOf.eq {m m' : String} (h : SuperOf loader n m) (h' : SuperOf loader n m') : m = m' := by
  obtain ⟨file, superName, hload, hsuper, rfl⟩ := h
  obtain ⟨file', superName', hload', hsuper', rfl⟩ := h'
  obtain rfl : file = file' := Except.ok.inj (hload.symm.trans hload')
  obtain rfl : superName = superName' := Option.some.inj (hsuper.symm.trans hsuper')
  rfl

/-- A class of the table has all its superclasses there. -/
theorem find?_of_superOf {m : String} {c : ClassInfo} (hs : s.classes.Defined loader)
    (hn : s.classes.find? n = some c) (h : Relation.ReflTransGen (SuperOf loader) n m) :
    ∃ d, s.classes.find? m = some d := by
  induction h with
  | refl => exact ⟨c, hn⟩
  | @tail m k _ hsuper ih =>
    obtain ⟨d, hd⟩ := ih
    have hmem := ClassTable.mem_of_find? hd
    obtain ⟨file, superName, hload, hname, rfl⟩ := hsuper
    obtain ⟨file', super, hdefines⟩ := hs.defines d hmem
    obtain rfl : file = file' := by
      have hload' := hdefines.load
      rw [ClassTable.name_of_find? hd, hload] at hload'
      exact Except.ok.inj hload'
    have hsuperName : d.superName = some (ClassName.slashed superName) := by rw [hdefines.declared, hname]; rfl
    obtain ⟨k, hk, hkname⟩ := hs.linked.ordered.super_mem hmem hsuperName
    exact ⟨k, hkname ▸ hs.linked.ordered.find?_name hk⟩

/-- The class `n`, which is `name` or a superclass of it, was loaded and its superclass is there, but one of its own
descriptors cannot be read, so that it could not be added. -/
structure Aborted (loader : Loader) (name : String) (s : Session) (failure : Failure) (n : String)
    (file : ClassFile) : Prop where
  super : Relation.ReflTransGen (SuperOf loader) name n
  load : loader.load n = .ok file
  super_found : ∀ m, SuperOf loader n m → ∃ c, s.classes.find? m = some c
  absent : s.classes.find? n = none
  unreadable : Unreadable file failure

/-- Above a class that was aborted all classes are there, and below it none, so there is only one. -/
theorem Aborted.unique {n' : String} {file' : ClassFile} (hs : s.classes.Defined loader)
    (h : Aborted loader name s failure n file) (h' : Aborted loader name s failure n' file') : file = file' := by
  have heq {n n' : String} {file file' : ClassFile} (h : Aborted loader name s failure n file)
      (h' : Aborted loader name s failure n' file') (hchain : Relation.ReflTransGen (SuperOf loader) n n') : n = n' := by
    rcases hchain.cases_head with rfl | ⟨m, hsuper, hchain⟩
    · rfl
    · obtain ⟨c, hc⟩ := h.super_found m hsuper
      obtain ⟨d, hd⟩ := find?_of_superOf hs hc hchain
      rw [h'.absent] at hd
      cases hd
  have hn : n = n' := by
    have hsuper : Relator.RightUnique (SuperOf loader) := fun _ _ _ => SuperOf.eq
    rcases Relation.ReflTransGen.total_of_right_unique hsuper h.super h'.super with hchain | hchain
    · exact heq h h' hchain
    · exact (heq h' h hchain).symm
  exact Except.ok.inj (h.load.symm.trans (hn ▸ h'.load))

/-- What the resolution of a class leaves behind. -/
def Leaves (loader : Loader) (name : String) (s : Session) : Except Failure ClassInfo × Session → Prop
  | (.ok _, s') => ∃ published, Grown s s' published [] ∧
      ∀ c ∈ published, Relation.ReflTransGen (SuperOf loader) name c.name
  | (.error failure, s') => ∃ published lost, Grown s s' published lost ∧
      (∀ c ∈ published, Relation.ReflTransGen (SuperOf loader) name c.name) ∧
      ((∃ n file, Aborted loader name s' failure n file ∧ lost = staticTypes file.fields) ∨
        (∀ n file, ¬ Aborted loader name s' failure n file) ∧ lost = [])

theorem Begins.superOf {superName : String} (h : Begins loader n file s) (hsuper : file.superName = some superName) :
    SuperOf loader n (ClassName.slashed superName) :=
  ⟨file, superName, h.load, hsuper, rfl⟩

theorem Grown.leaves_define (h : Grown s s' published []) (hopen : ¬ s.isClosed) (hload : loader.load name = .ok file)
    (hfresh : s'.classes.find? name = none) (hfound : ∀ m, SuperOf loader name m → ∃ c, s'.classes.find? m = some c)
    (hpublished : ∀ c ∈ published, Relation.ReflTransGen (SuperOf loader) name c.name) :
    Leaves loader name s (s'.define name file super) := by
  rw [← h.isClosed_eq] at hopen
  rcases grown_define name file super hopen with
    ⟨failure, hresult, hunreadable, hgrown⟩ | ⟨c, hresult, hname, hgrown⟩
  · have hclasses := classes_define_of_error hresult
    generalize s'.define name file super = r at hresult hgrown hclasses ⊢
    obtain ⟨result, s''⟩ := r
    cases hresult
    refine ⟨published ++ [], _, h.trans hgrown, fun c hc => hpublished c (by simpa using hc),
      .inl ⟨name, file, ⟨.refl, hload, ?_, ?_, hunreadable⟩, rfl⟩⟩
    · rwa [hclasses]
    · rwa [hclasses]
  · generalize s'.define name file super = r at hresult hgrown ⊢
    obtain ⟨result, s''⟩ := r
    cases hresult
    refine ⟨published ++ [c], h.trans hgrown, fun d hd => ?_⟩
    rcases List.mem_append.1 hd with hd | hd
    · exact hpublished d hd
    · rw [List.mem_singleton.1 hd, hname]

/-- A class whose resolution fails is not there afterwards. -/
theorem Resolves.find?_of_error {r : Except Failure ClassInfo × Session} (h : Resolves loader name s r)
    (hr : r.1 = .error failure) (hfresh : s.classes.find? (ClassName.slashed name) = none) :
    r.2.classes.find? (ClassName.slashed name) = none := by
  cases h with
  | fails => exact hfresh
  | found => cases hr
  | root => rwa [classes_define_of_error hr]
  | superFails h _ hresolves => exact hresolves.find?_of_resolving (List.mem_cons_self ..) hfresh
  | derived h _ hresolves =>
    rw [classes_define_of_error hr]
    exact hresolves.find?_of_resolving (List.mem_cons_self ..) hfresh

/-- Before a descriptor is read, or the loader asked, the class was looked up. -/
theorem Resolves.fresh_of_unreadable {r : Except Failure ClassInfo × Session} (h : Resolves loader name s r)
    (hr : r.1 = .error failure) (hunreadable : Unreadable file failure) :
    s.classes.find? (ClassName.slashed name) = none := by
  cases h with
  | fails h =>
    cases hr
    cases h with
    | closed hfresh | circular hfresh | missing hfresh => exact hfresh
    | exhausted | array => exact Bool.noConfusion hunreadable.isOfLowering
  | found => cases hr
  | root h | superFails h | derived h => exact h.fresh

theorem Refused.not_aborted (h : Refused loader name s failure) :
    ¬ Aborted loader (ClassName.slashed name) s failure n file := by
  intro haborted
  cases h with
  | exhausted | array | closed | circular => exact Bool.noConfusion haborted.unreadable.isOfLowering
  | missing _ hmissing =>
    -- The way up ends at a class that the loader does not have.
    rcases haborted.super.cases_head with heq | ⟨m, ⟨file', _, hload, -⟩, -⟩
    · have hload := haborted.load
      rw [← heq, hmissing] at hload
      cases hload
    · rw [hmissing] at hload
      cases hload

theorem Resolves.leaves {r : Except Failure ClassInfo × Session} (h : Resolves loader name s r) :
    Leaves loader (ClassName.slashed name) s r := by
  induction h with
  | fails h => exact ⟨[], [], .refl, by simp, .inr ⟨fun n file => h.not_aborted, rfl⟩⟩
  | found => exact ⟨[], .refl, by simp⟩
  | root h hsuper =>
    refine Grown.refl.leaves_define h.isOpen h.load h.fresh ?_ (by simp)
    rintro m ⟨file', superName, hload, hname, -⟩
    obtain rfl := Except.ok.inj (h.load.symm.trans hload)
    rw [hsuper] at hname
    cases hname
  | @superFails name superName s s' file failure h hsuper hresolves ih =>
    obtain ⟨published, lost, hgrown, hpublished, hlost⟩ := ih
    have hstep := h.superOf hsuper
    refine ⟨published, lost, hgrown.set_resolving _ _ rfl rfl, fun c hc => (hpublished c hc).head hstep, ?_⟩
    rcases hlost with ⟨n, file, haborted, hlost⟩ | ⟨hnone, hlost⟩
    · exact .inl ⟨n, file, { haborted with super := haborted.super.head hstep }, hlost⟩
    · refine .inr ⟨fun n file haborted => ?_, hlost⟩
      rcases haborted.super.cases_head with rfl | ⟨m, hm, hchain⟩
      · -- The class itself comes after its superclass, which is not there.
        obtain ⟨c, hc⟩ := haborted.super_found _ hstep
        have hfresh := hresolves.fresh_of_unreadable rfl haborted.unreadable
        rw [show s'.classes.find? _ = none from hresolves.find?_of_error rfl hfresh] at hc
        cases hc
      · exact hnone n file { haborted with super := hstep.eq hm ▸ hchain }
  | derived h hsuper hresolves ih =>
    obtain ⟨published, hgrown, hpublished⟩ := ih
    -- The class was marked as being resolved, so its superclasses have not brought it along.
    have hfresh := hresolves.find?_of_resolving (List.mem_cons_self ..) h.fresh
    refine (hgrown.set_resolving _ _ rfl rfl).leaves_define h.isOpen h.load hfresh (fun m hm => ?_) fun c hc => ?_
    · rw [hm.eq (h.superOf hsuper)]
      exact ⟨_, hresolves.find?_of_ok rfl⟩
    · exact (hpublished c hc).head (h.superOf hsuper)

/-- A failed resolution has added proper superclasses of the class at most, and all else is as before but for the pool
of static fields. If a class on the way up has failed on one of its own descriptors, the pool has given out, besides
the storage of the classes that were added, that of the static fields of this class, up to its first bad field
descriptor. If no class has, it has given out nothing else. -/
theorem Reachable.resolveClass_fails (h : s.Reachable loader)
    (hfail : s.resolveClass loader name = (.error failure, s')) :
    s'.classes.find? (ClassName.slashed name) = none ∧
      ∃ published lost, Grown s s' published lost ∧
        (∀ c ∈ published, Relation.TransGen (SuperOf loader) (ClassName.slashed name) c.name) ∧
        (∀ n file, Aborted loader (ClassName.slashed name) s' failure n file → lost = staticTypes file.fields) ∧
        ((∀ n file, ¬ Aborted loader (ClassName.slashed name) s' failure n file) → lost = []) := by
  have hresolves := resolves_resolveClassWithin loader (loader.limit + 1) name s
  rw [← Session.resolveClass, hfail] at hresolves
  have hfresh : s.classes.find? (ClassName.slashed name) = none := by
    cases hfind : s.classes.find? (ClassName.slashed name) with
    | none => rfl
    | some c =>
      have hok := resolveClass_of_mem h.resolved.defined.linked (ClassTable.mem_of_find? hfind)
        (ClassTable.name_of_find? hfind).symm
      rw [hok] at hfail
      cases hfail
  have hnext : s'.classes.Defined loader := by
    have hnext := h.resolveClass name
    rw [hfail] at hnext
    exact hnext.resolved.defined
  have habsent := hresolves.find?_of_error rfl hfresh
  obtain ⟨published, lost, hgrown, hpublished, hlost⟩ := hresolves.leaves
  refine ⟨habsent, published, lost, hgrown, fun c hc => ?_, fun n file haborted => ?_, fun hnone => ?_⟩
  · rcases Relation.reflTransGen_iff_eq_or_transGen.1 (hpublished c hc) with hname | hsuper
    · -- The class itself would be found if it had been added.
      have hmem : c ∈ s'.classes.latest := by
        rw [← ClassTable.mem_order, hgrown.order]
        exact List.mem_append_right _ hc
      have hfound := hnext.linked.ordered.find?_name hmem
      rw [hname, habsent] at hfound
      cases hfound
    · exact hsuper
  · rcases hlost with ⟨n', file', haborted', rfl⟩ | ⟨hnone, -⟩
    · rw [haborted.unique hnext haborted']
    · exact absurd haborted (hnone n file)
  · rcases hlost with ⟨n, file, haborted, -⟩ | ⟨-, hlost⟩
    · exact absurd haborted (hnone n file)
    · exact hlost

theorem error_of_toOption_eq_none {r : Except Failure ClassInfo × Session} (h : r.1.toOption = none) :
    ∃ failure, r = (.error failure, r.2) := by
  obtain ⟨failure | c, s⟩ := r
  · exact ⟨failure, rfl⟩
  · cases h

/-- The pool has grown, though no class was added. -/
theorem pool_grows_without_class :
    ({} : Session).Reachable shapes ∧ ∃ failure s', ({} : Session).resolveClass shapes "Broken" = (.error failure, s') ∧
      s'.classes = ({} : Session).classes ∧ s'.statics.layout ≠ ({} : Session).statics.layout.advance [] := by
  obtain ⟨hnone, hclasses, hstatics⟩ :
      (({} : Session).resolveClass shapes "Broken").1.toOption = none ∧
      (({} : Session).resolveClass shapes "Broken").2.classes = {} ∧
      (({} : Session).resolveClass shapes "Broken").2.statics.layout ≠ FieldLayout.advance {} [] := by decide +kernel
  obtain ⟨failure, hfail⟩ := error_of_toOption_eq_none hnone
  exact ⟨.start, failure, _, hfail, hclasses, hstatics⟩

/-- A class that inherits from one with a bad descriptor, which inherits from a sound one. -/
def wrecks : Loader where
  load
    | "Base" => .ok (fileOf "Base" none [⟨⟨8⟩, "count", "I"⟩])
    | "Broken" => .ok (fileOf "Broken" (some "Base") [⟨⟨8⟩, "lost", "B"⟩, ⟨⟨0⟩, "odd", "Q"⟩, ⟨⟨8⟩, "late", "J"⟩])
    | "Leaf" => .ok (fileOf "Leaf" (some "Broken") [⟨⟨8⟩, "more", "J"⟩])
    | name => .error (Cause.classNotFound name : Failure)
  limit := 3

theorem wrecks_leaf_fails :
    ({} : Session).Reachable wrecks ∧ ∃ failure s', ({} : Session).resolveClass wrecks "Leaf" = (.error failure, s') ∧
      s'.statics.layout = ⟨2, some 6, some 5⟩ ∧
      ∃ published lost, Grown {} s' published lost ∧ published.map (·.name) = ["Base"] ∧ lost = [⟨0, .byte, ""⟩] := by
  let failure : Failure := Cause.invalidDescriptor "Q" (some "Q")
  obtain ⟨hresult, hclasses, hstatics, hbase, hbroken⟩ :
      (({} : Session).resolveClass wrecks "Leaf").1.map (·.name) = .error failure ∧
      (({} : Session).resolveClass wrecks "Leaf").2.classes.order.map (·.name) = ["Base"] ∧
      (({} : Session).resolveClass wrecks "Leaf").2.statics.layout = ⟨2, some 6, some 5⟩ ∧
      (({} : Session).resolveClass wrecks "Leaf").2.classes.find? (ClassName.slashed "Base") ≠ none ∧
      (({} : Session).resolveClass wrecks "Leaf").2.classes.find? "Broken" = none := by decide +kernel
  generalize hresolve : ({} : Session).resolveClass wrecks "Leaf" = r at *
  obtain ⟨result, s'⟩ := r
  cases result with
  | ok => cases hresult
  | error failure' =>
    cases hresult
    obtain ⟨-, published, lost, hgrown, -, hlost, -⟩ := Reachable.resolveClass_fails .start hresolve
    have hleaf : ClassName.slashed "Leaf" = "Leaf" := by decide +kernel
    have haborted : Aborted wrecks (ClassName.slashed "Leaf") s' failure "Broken"
        (fileOf "Broken" (some "Base") [⟨⟨8⟩, "lost", "B"⟩, ⟨⟨0⟩, "odd", "Q"⟩, ⟨⟨8⟩, "late", "J"⟩]) := by
      rw [hleaf]
      have hsuper : SuperOf wrecks "Leaf" "Broken" := ⟨_, "Broken", rfl, rfl, by decide +kernel⟩
      refine ⟨.single hsuper, rfl, ?_, hbroken, .inl ⟨⟨⟨0⟩, "odd", "Q"⟩, ?_, ?_⟩⟩
      · rintro m ⟨_, _, ⟨⟩, ⟨⟩, rfl⟩
        exact Option.ne_none_iff_exists'.1 hbase
      · decide
      · decide +kernel
    refine ⟨.start, failure, s', rfl, hstatics, published, lost, hgrown, ?_, ?_⟩
    · rw [← hclasses, hgrown.order]
      rfl
    · rw [hlost _ _ haborted]
      decide +kernel

end Session

end JvmAot
