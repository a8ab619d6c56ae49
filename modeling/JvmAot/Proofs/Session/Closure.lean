import JvmAot.Proofs.Lowering.Dependencies
import JvmAot.Proofs.Session.Determinacy
import JvmAot.Proofs.Session.References

/-! # The classes of a program

`Needed` is the least set of classes that holds the entry class and those that the runtime relies on, and with a class
its superclass and all classes that its bodies refer to. A session that compiles a program has needed classes only
(`Gathered`), and once a text is written it has the classes that the text refers to (`Texts.gathered`). So at the end
the needed classes are there, and no others. -/

namespace JvmAot.Session

/-- The classes that a program needs. -/
inductive Needed (loader : Loader) (entry : String) : String → Prop
  | object : Needed loader entry objectClass
  | array : Needed loader entry arrayClass
  | string : Needed loader entry stringClass
  | entry : Needed loader entry (ClassName.slashed entry)
  | super {name superName : String} {file : ClassFile} (h : Needed loader entry name)
      (hload : loader.load name = .ok file) (hsuper : file.superName = some superName) :
      Needed loader entry (ClassName.slashed superName)
  | reference {name reference : String} {file : ClassFile} (h : Needed loader entry name)
      (hload : loader.load name = .ok file) (hreference : reference ∈ file.references) :
      Needed loader entry (ClassName.slashed reference)

/-- A class with the given name is resolved. -/
def Has (s : Session) (name : String) : Prop :=
  ∃ c ∈ s.classes.latest, c.name = name

/-- Only needed classes are resolved, and the class behind each array type is. -/
structure Gathered (loader : Loader) (entry : String) (array : Option ClassInfo) (s : Session) : Prop where
  needed : ∀ c ∈ s.classes.latest, Needed loader entry c.name
  leaves : ∀ p ∈ s.arrays, ∀ n ∈ leafClasses p.1, s.Has (ClassName.slashed n)
  array_eq : s.array = array

variable {loader : Loader} {entry name className : String} {array : Option ClassInfo} {s s' : Session} {c : ClassInfo}

theorem Has.mono (h : s.Has name) (hsub : s.classes.latest ⊆ s'.classes.latest) : s'.Has name := by
  obtain ⟨c, hc, hname⟩ := h
  exact ⟨c, hsub hc, hname⟩

theorem Has.steps (h : s.Has name) (hsteps : Steps loader s s') : s'.Has name :=
  h.mono hsteps.latest_suffix.subset

theorem Gathered.start : ({} : Session).Gathered loader entry none where
  needed := by simp
  leaves := by simp
  array_eq := rfl

/-! ### Resolution -/

theorem Gathered.define {file : ClassFile} {super : Option ClassInfo} (hs : s.Gathered loader entry array)
    (hname : Needed loader entry name) : (s.define name file super).2.Gathered loader entry array := by
  rcases define_cases name file super s with ⟨_, heq⟩ | ⟨c, statics, heap, heq, rfl, -⟩ <;> rw [heq]
  · exact ⟨hs.needed, hs.leaves, hs.array_eq⟩
  · refine ⟨List.forall_mem_cons.2 ⟨hname, hs.needed⟩, fun p hp n hn => ?_, hs.array_eq⟩
    exact (hs.leaves p hp n hn).mono (List.subset_cons_self _ _)

theorem Resolves.gathered {r : Except Failure ClassInfo × Session} (h : Resolves loader name s r)
    (hname : Needed loader entry (ClassName.slashed name)) (hs : s.Gathered loader entry array) :
    r.2.Gathered loader entry array := by
  induction h with
  | fails | found => exact hs
  | root => exact hs.define hname
  | superFails h hsuper _ ih =>
    have hrest := ih (.super hname h.load hsuper) ⟨hs.needed, hs.leaves, hs.array_eq⟩
    exact ⟨hrest.needed, hrest.leaves, hrest.array_eq⟩
  | derived h hsuper _ ih =>
    have hrest := ih (.super hname h.load hsuper) ⟨hs.needed, hs.leaves, hs.array_eq⟩
    exact Gathered.define ⟨hrest.needed, hrest.leaves, hrest.array_eq⟩ hname

theorem gathered_resolveClass {result : Except Failure ClassInfo} (h : s.resolveClass loader name = (result, s'))
    (hname : Needed loader entry (ClassName.slashed name)) (hs : s.Gathered loader entry array) :
    s'.Gathered loader entry array := by
  have hresolves := (resolves_resolveClassWithin loader (loader.limit + 1) name s).gathered hname hs
  rwa [← resolveClass, h] at hresolves

theorem has_of_resolveClass (h : s.resolveClass loader name = (.ok c, s')) : s'.Has (ClassName.slashed name) := by
  have hfind := find?_of_resolveClass h
  exact ⟨c, ClassTable.mem_of_find? hfind, ClassTable.name_of_find? hfind⟩

theorem gathered_defineArray {object : ClassInfo} {descriptor : String} {element : Option ObjectId}
    {elementType : Option BaseType} {metadata : ObjectId} (hs : s.Gathered loader entry array)
    (hleaves : ∀ n ∈ leafClasses descriptor, s.Has (ClassName.slashed n))
    (h : s.defineArray object descriptor element elementType = (metadata, s')) :
    s'.Gathered loader entry array ∧ ∀ n ∈ leafClasses descriptor, s'.Has (ClassName.slashed n) := by
  obtain rfl : (s.defineArray object descriptor element elementType).2 = s' := by rw [h]
  exact ⟨⟨hs.needed, List.forall_mem_cons.2 ⟨hleaves, hs.leaves⟩, hs.array_eq⟩, hleaves⟩

/-- An array type that is resolved has the class that its elements come down to. -/
theorem gathered_resolveArrayOf {leaf : FieldType} (hvalid : leaf.IsValid) (hdimension : leaf.dimension = 0)
    (hneeded : ∀ n ∈ leaf.leafClasses, Needed loader entry (ClassName.slashed n)) (dimension : Nat)
    (hs : s.Gathered loader entry array) :
    (resolveArrayOf loader leaf dimension s).2.Gathered loader entry array ∧
      ∀ id, (resolveArrayOf loader leaf dimension s).1 = .ok id →
        ∀ n ∈ leaf.leafClasses, (resolveArrayOf loader leaf dimension s).2.Has (ClassName.slashed n) := by
  -- All array types over the leaf come down to its class.
  have hleaf (d : Nat) : leafClasses { leaf with dimension := d }.toText = leaf.leafClasses := leafClasses_toText hvalid
  fun_induction resolveArrayOf loader leaf dimension s with
  | case1 | case3 => exact ⟨hs, by simp⟩
  | case2 dimension s descriptor metadata hlookup =>
    refine ⟨hs, fun _ _ n hn => ?_⟩
    obtain ⟨before, after, harrays, -⟩ := List.lookup_eq_some_iff.1 hlookup
    refine hs.leaves (descriptor, metadata) (by simp [harrays]) n ?_
    rwa [hleaf]
  | case4 s _ hobject hreference _ _ hclass =>
    have hbase : leaf.base = .reference := by simpa [FieldType.isReference, FieldType.isArray, hdimension] using hreference
    have hname : leaf.className ∈ leaf.leafClasses := by simp [FieldType.leafClasses, hbase]
    exact ⟨gathered_resolveClass hclass (hneeded _ hname) hs, by simp⟩
  | case5 s _ hobject hreference _ _ hclass _ _ _ _ harray =>
    have hbase : leaf.base = .reference := by simpa [FieldType.isReference, FieldType.isArray, hdimension] using hreference
    have hclasses : leaf.leafClasses = [leaf.className] := if_pos hbase
    have hs₁ := gathered_resolveClass hclass (hneeded _ (by simp [hclasses])) hs
    have hhas := has_of_resolveClass hclass
    obtain ⟨hs₂, hleaves⟩ := gathered_defineArray hs₁ (by rw [hleaf, hclasses]; simpa using hhas) harray
    refine ⟨hs₂, fun _ _ n hn => hleaves n ?_⟩
    rwa [hleaf]
  | case6 s _ hobject hreference _ _ _ _ harray =>
    have hclasses : leaf.leafClasses = [] :=
      if_neg fun hbase => hreference (by simp [FieldType.isReference, hbase])
    obtain ⟨hs₁, -⟩ := gathered_defineArray hs (by rw [hleaf, hclasses]; simp) harray
    refine ⟨hs₁, fun _ _ n hn => ?_⟩
    rw [hclasses] at hn
    cases hn
  | case7 dimension s _ _ _ _ _ _ _ helement ih =>
    rw [helement] at ih
    exact ⟨(ih hs).1, by simp⟩
  | case8 dimension s _ _ hobject _ _ _ _ helement _ _ harray ih =>
    rw [helement] at ih
    obtain ⟨hs₁, hhas⟩ := ih hs
    obtain ⟨hs₂, hleaves⟩ := gathered_defineArray hs₁ (by rw [hleaf]; exact hhas _ rfl) harray
    refine ⟨hs₂, fun _ _ n hn => hleaves n ?_⟩
    rwa [hleaf]

theorem gathered_resolveArray {descriptor : String}
    (hneeded : ∀ n ∈ leafClasses descriptor, Needed loader entry (ClassName.slashed n))
    (hs : s.Gathered loader entry array) :
    (s.resolveArray loader descriptor).2.Gathered loader entry array ∧
      ∀ id, (s.resolveArray loader descriptor).1 = .ok id →
        ∀ n ∈ leafClasses descriptor, (s.resolveArray loader descriptor).2.Has (ClassName.slashed n) := by
  unfold resolveArray
  split
  · rename_i metadata hlookup
    refine ⟨hs, fun _ _ n hn => ?_⟩
    obtain ⟨before, after, harrays, -⟩ := List.lookup_eq_some_iff.1 hlookup
    exact hs.leaves (descriptor, metadata) (by simp [harrays]) n hn
  split
  · exact ⟨hs, by simp⟩
  split
  · exact ⟨hs, by simp⟩
  split
  · rename_i type hparse _
    have hclasses : leafClasses descriptor = type.leafClasses := by rw [leafClasses, hparse]
    rw [hclasses] at hneeded ⊢
    have hleaf : ({ type with dimension := 0 } : FieldType).IsValid := (FieldType.toText_of_parse hparse).2
    exact gathered_resolveArrayOf hleaf rfl hneeded type.dimension hs
  · exact ⟨hs, by simp⟩

theorem gathered_resolveArrays {descriptors : List String}
    (hneeded : ∀ d ∈ descriptors, ∀ n ∈ leafClasses d, Needed loader entry (ClassName.slashed n))
    (hs : s.Gathered loader entry array) :
    (s.resolveArrays loader descriptors).2.Gathered loader entry array := by
  induction descriptors generalizing s with
  | nil => exact hs
  | cons descriptor rest ih =>
    obtain ⟨hfirst, hrest⟩ := List.forall_mem_cons.1 hneeded
    have hs₁ := (gathered_resolveArray hfirst hs).1
    unfold resolveArrays
    split
    · rename_i heq
      rwa [heq] at hs₁
    · rename_i heq
      rw [heq] at hs₁
      exact ih hrest hs₁

/-- No array type of the runtime needs more than the root class. -/
theorem leafClasses_runtime : ∀ d ∈ primitiveArrays ++ [Heap.vtableType], ∀ n ∈ leafClasses d,
    ClassName.slashed n = objectClass := by
  decide +kernel

theorem gathered_bootstrap (entry : String) (h : ({} : Session).bootstrap loader = (.ok (), s')) :
    (∃ a, s'.Gathered loader entry (some a)) ∧ s'.Has objectClass ∧ s'.Has arrayClass ∧ s'.Has stringClass := by
  have hobjectName : ClassName.slashed objectClass = objectClass := by cbv
  have harrayName : ClassName.slashed arrayClass = arrayClass := by cbv
  have hstringName : ClassName.slashed stringClass = stringClass := by cbv
  rcases hobject : ({} : Session).resolveClass loader objectClass with ⟨failure | object, s₁⟩
  · simp [bootstrap, hobject] at h
  rcases harray : { s₁ with object := some object }.resolveClass loader arrayClass with ⟨failure | a, s₂⟩
  · simp [bootstrap, hobject, harray, Except.toOption] at h
  rcases hstring : { s₂ with array := some a }.resolveClass loader stringClass with ⟨failure | string, s₃⟩
  · simp [bootstrap, hobject, harray, hstring, Except.toOption] at h
  have h₁ : s₁.Gathered loader entry none := gathered_resolveClass hobject (by rw [hobjectName]; exact .object) .start
  have h₂ : s₂.Gathered loader entry none :=
    gathered_resolveClass harray (by rw [harrayName]; exact .array) ⟨h₁.needed, h₁.leaves, h₁.array_eq⟩
  have h₃ : s₃.Gathered loader entry (some a) :=
    gathered_resolveClass hstring (by rw [hstringName]; exact .string) ⟨h₂.needed, h₂.leaves, rfl⟩
  have hlast : ({ s₃ with string := some string }.resolveArrays loader
      (primitiveArrays ++ [Heap.vtableType])).2.Gathered loader entry (some a) := by
    refine gathered_resolveArrays (fun d hd n hn => ?_) ⟨h₃.needed, h₃.leaves, h₃.array_eq⟩
    rw [leafClasses_runtime d hd n hn]
    exact .object
  have hchanges := (changes_resolveArrays loader (primitiveArrays ++ [Heap.vtableType])
    { s₃ with string := some string }).steps
  simp only [bootstrap, hobject, harray, hstring, Except.toOption] at h
  rw [h] at hlast hchanges
  have hhas₁ : s₁.Has objectClass := hobjectName ▸ has_of_resolveClass hobject
  have hhas₂ : s₂.Has arrayClass := harrayName ▸ has_of_resolveClass harray
  have hhas₃ : s₃.Has stringClass := hstringName ▸ has_of_resolveClass hstring
  have hlater {name : String} (h : s₃.Has name) : s'.Has name := h.mono hchanges.latest_suffix.subset
  have hsuffix₂ := (changes_resolveClass harray).steps.latest_suffix.subset
  have hsuffix₃ := (changes_resolveClass hstring).steps.latest_suffix.subset
  exact ⟨⟨a, hlast⟩, hlater ((hhas₁.mono hsuffix₂).mono hsuffix₃), hlater (hhas₂.mono hsuffix₃), hlater hhas₃⟩

/-! ### Answers -/

theorem gathered_answerFor {α : Type} {owner : String} {answer : ClassTable → ClassInfo → Except Failure α}
    (hneeded : Needed loader entry (ClassName.slashed owner)) (hs : s.Gathered loader entry array) :
    (s.answerFor loader owner answer).2.Gathered loader entry array ∧
      ∀ a, (s.answerFor loader owner answer).1 = .ok a →
        (s.answerFor loader owner answer).2.Has (ClassName.slashed owner) := by
  unfold answerFor
  split
  · rename_i hresolve
    exact ⟨gathered_resolveClass hresolve hneeded hs, by simp⟩
  · rename_i hresolve
    exact ⟨gathered_resolveClass hresolve hneeded hs, fun _ _ => has_of_resolveClass hresolve⟩

/-- An answer comes from the classes that its question is about. -/
theorem gathered_answer (className : String) {q : Question}
    (hneeded : ∀ n ∈ q.classes, Needed loader entry (ClassName.slashed n))
    (hs : s.Gathered loader entry array) :
    (s.answer loader className q).2.Gathered loader entry array ∧
      ∀ a, (s.answer loader className q).1 = .ok a →
        ∀ n ∈ q.classes, (s.answer loader className q).2.Has (ClassName.slashed n) := by
  have howner {owner : String} {α : Type} {f : ClassTable → ClassInfo → Except Failure α}
      (hneeded : ∀ n ∈ [owner], Needed loader entry (ClassName.slashed n)) :
      (s.answerFor loader owner f).2.Gathered loader entry array ∧
        ∀ a, (s.answerFor loader owner f).1 = .ok a →
          ∀ n ∈ [owner], (s.answerFor loader owner f).2.Has (ClassName.slashed n) := by
    obtain ⟨hgathered, hhas⟩ := gathered_answerFor (hneeded owner (List.mem_singleton_self _)) hs
    exact ⟨hgathered, fun a ha n hn => List.mem_singleton.1 hn ▸ hhas a ha⟩
  cases q with
  | field owner name => exact howner hneeded
  | method owner name descriptor => exact howner hneeded
  | instanceSize owner => exact howner hneeded
  | arrayVtable descriptor =>
    obtain ⟨hgathered, hhas⟩ := gathered_resolveArray hneeded hs
    simp only [answer]
    split
    · rename_i heq
      rw [heq] at hgathered
      exact ⟨hgathered, by simp⟩
    · rename_i heq
      rw [heq] at hgathered hhas
      exact ⟨⟨hgathered.needed, hgathered.leaves, hgathered.array_eq⟩, fun _ _ => hhas _ rfl⟩
  | stringLabel slot units =>
    have hframe := stringObject_frame className slot units s
    refine ⟨?_, by simp [Question.classes]⟩
    have hstring : (s.stringObject className slot units).2.Gathered loader entry array := by
      rw [hframe]
      exact ⟨hs.needed, hs.leaves, hs.array_eq⟩
    simp only [answer]
    split
    · rename_i heq
      rwa [heq] at hstring
    · rename_i heq
      rw [heq] at hstring
      exact ⟨hstring.needed, hstring.leaves, hstring.array_eq⟩

theorem gathered_run {lowering : Lowering} {names : List String} {result : Lowered} (hasks : lowering.Asks names)
    (hneeded : ∀ n ∈ names, Needed loader entry (ClassName.slashed n)) (hs : s.Gathered loader entry array)
    (h : lowering.run (context loader className) s = (result, s')) :
    s'.Gathered loader entry array ∧ (result.failure = none → ∀ n ∈ names, s'.Has (ClassName.slashed n)) := by
  cases lowering with
  | done =>
    cases h
    refine ⟨hs, fun hf n hn => ?_⟩
    rw [hasks hf] at hn
    cases hn
  | ask q next =>
    obtain rfl : q.classes = names := hasks
    obtain ⟨hgathered, hhas⟩ := gathered_answer className hneeded hs
    rw [Lowering.run] at h
    split at h
    · rename_i a s₁ hanswer
      cases h
      rw [show s.answer loader className q = _ from hanswer] at hgathered hhas
      exact ⟨hgathered, fun _ => hhas a rfl⟩
    · rename_i hanswer
      cases h
      rw [show s.answer loader className q = _ from hanswer] at hgathered
      exact ⟨hgathered, by simp⟩

/-! ### Texts -/

theorem gathered_listing {scope : Scope} {instructions : List Instruction}
    (hneeded : ∀ n ∈ instructions.flatMap Instruction.references, Needed loader entry (ClassName.slashed n))
    (hs : s.Gathered loader entry array) :
    (scope.listing (context loader className) instructions s).state.Gathered loader entry array ∧
      ((scope.listing (context loader className) instructions s).failure = none →
        ∀ n ∈ instructions.flatMap Instruction.references,
          (scope.listing (context loader className) instructions s).state.Has (ClassName.slashed n)) := by
  induction instructions generalizing s with
  | nil => exact ⟨hs, by simp⟩
  | cons i rest ih =>
    rw [List.flatMap_cons, List.forall_mem_append] at hneeded
    rcases hrun : (scope.lower i).run (context loader className) s with ⟨⟨code, failure⟩, s₁⟩
    obtain ⟨hs₁, hhas⟩ := gathered_run (scope.asks_lower i) hneeded.1 hs hrun
    rw [Scope.listing, hrun]
    cases failure with
    | some failure => exact ⟨hs₁, by simp⟩
    | none =>
      obtain ⟨hs₂, hrest⟩ := ih hneeded.2 hs₁
      refine ⟨hs₂, fun hf => ?_⟩
      rw [List.flatMap_cons, List.forall_mem_append]
      exact ⟨fun n hn => (hhas rfl n hn).steps (steps_listing rest s₁), hrest hf⟩

theorem gathered_methodListing (className : String) (header : Int) {d : MethodDecl}
    (hneeded : ∀ n ∈ d.references, Needed loader entry (ClassName.slashed n)) (hs : s.Gathered loader entry array) :
    (d.listing (context loader className) header className s).state.Gathered loader entry array ∧
      ((d.listing (context loader className) header className s).failure = none →
        ∀ n ∈ d.references, (d.listing (context loader className) header className s).state.Has (ClassName.slashed n)) := by
  unfold MethodDecl.listing MethodDecl.references at *
  split
  · rename_i hbody
    rw [hbody]
    exact ⟨hs, by simp⟩
  rename_i code hbody
  rw [hbody] at hneeded ⊢
  split
  · exact ⟨hs, by simp⟩
  split
  · exact ⟨hs, by simp⟩
  rw [Listing.within, MethodDecl.bodyListing]
  split
  · exact ⟨hs, by simp⟩
  · rw [Listing.state_append]
    obtain ⟨hgathered, hhas⟩ := gathered_listing hneeded hs
    refine ⟨hgathered, fun hf => hhas ?_⟩
    exact (Listing.append_of_success (Option.map_eq_none_iff.1 hf)).1

theorem gathered_methodsListing (className : String) (header : Nat) {methods : List MethodInfo}
    (hneeded : ∀ m ∈ methods, ∀ n ∈ m.decl.references, Needed loader entry (ClassName.slashed n))
    (hs : s.Gathered loader entry array) :
    (s.methodsListing loader header className methods).state.Gathered loader entry array ∧
      ((s.methodsListing loader header className methods).failure = none → ∀ m ∈ methods, ∀ n ∈ m.decl.references,
        (s.methodsListing loader header className methods).state.Has (ClassName.slashed n)) := by
  induction methods generalizing s with
  | nil => exact ⟨hs, by simp⟩
  | cons m rest ih =>
    obtain ⟨hfirst, hrest⟩ := List.forall_mem_cons.1 hneeded
    obtain ⟨hs₁, hhas⟩ := gathered_methodListing className header hfirst hs
    obtain ⟨hs₂, hhas'⟩ := ih hrest hs₁
    refine ⟨Listing.state_andThen (P := Gathered loader entry array) hs₁ hs₂, fun hf => ?_⟩
    obtain ⟨hf₁, hf₂, heq⟩ := Listing.andThen_of_success hf
    rw [methodsListing, heq]
    exact List.forall_mem_cons.2 ⟨fun n hn => (hhas hf₁ n hn).steps (steps_methodsListing ..), hhas' hf₂⟩

/-- What the bodies of a class that is needed refer to is needed. -/
theorem needed_reference {m : MethodInfo} {n : String} (h : s.classes.Linked loader)
    (hc : c ∈ s.classes.latest) (hneeded : Needed loader entry c.name) (hm : m ∈ c.methods) (hn : n ∈ m.decl.references) :
    Needed loader entry (ClassName.slashed n) := by
  obtain ⟨file, hload, d, hd, hdeclared⟩ := h.declared hc hm
  rw [hdeclared.decl] at hn
  exact .reference hneeded hload (List.mem_flatMap.2 ⟨d, hd, hn⟩)

theorem gathered_classListing (hlinked : s.classes.Linked loader) (hc : c ∈ s.classes.latest)
    (hs : s.Gathered loader entry array) (hf : (s.classListing loader c).failure = none) :
    (s.classListing loader c).state.Gathered loader entry array ∧
      ∀ m ∈ c.methods, ∀ n ∈ m.decl.references, (s.classListing loader c).state.Has (ClassName.slashed n) := by
  obtain ⟨header, -, hmethods, heq⟩ := classListing_of_success hf
  obtain ⟨hs₁, hhas⟩ := gathered_methodsListing c.name header
    (fun m hm n hn => needed_reference hlinked hc (hs.needed c hc) hm hn) hs
  rw [heq]
  refine ⟨⟨hs₁.needed, hs₁.leaves, hs₁.array_eq⟩, fun m hm n hn => ?_⟩
  exact (hhas hmethods m hm n hn).mono (List.Subset.refl _)

theorem linked_classListing (hlinked : s.classes.Linked loader) (hc : c ∈ s.classes.latest) :
    (s.classListing loader c).state.classes.Linked loader :=
  (steps_classListing hc).keep (P := fun s => s.classes.Linked loader) (fun hstep h => hstep.linked h) hlinked

/-- Texts bring in needed classes only, and all that they refer to. -/
theorem Texts.gathered {classes : List ClassInfo} {lines : List Line} (h : Texts loader classes s s' lines)
    (hlinked : s.classes.Linked loader) (hs : s.Gathered loader entry array) :
    s'.Gathered loader entry array ∧
      ∀ c ∈ classes, ∀ m ∈ c.methods, ∀ n ∈ m.decl.references, s'.Has (ClassName.slashed n) := by
  induction h with
  | nil => exact ⟨hs, by simp⟩
  | mark _ _ ih => exact ih hlinked ⟨hs.needed, hs.leaves, hs.array_eq⟩
  | text hc hf h ih =>
    obtain ⟨hs₁, hhas⟩ := gathered_classListing hlinked hc hs hf
    obtain ⟨hs₂, hrest⟩ := ih (linked_classListing hlinked hc) hs₁
    refine ⟨hs₂, List.forall_mem_cons.2 ⟨fun m hm n hn => ?_, hrest⟩⟩
    exact (hhas m hm n hn).mono fun _ hk => h.mem_classes hk

/-! ### The closure -/

/-- A session has all classes that are needed, if it has those that its classes refer to. -/
theorem has_of_needed (hdefined : s.classes.Defined loader)
    (hreferences : ∀ c ∈ s.classes.latest, ∀ m ∈ c.methods, ∀ n ∈ m.decl.references, s.Has (ClassName.slashed n))
    (hobject : s.Has objectClass) (harray : s.Has arrayClass) (hstring : s.Has stringClass)
    (hentry : s.Has (ClassName.slashed entry)) (h : Needed loader entry name) : s.Has name := by
  induction h with
  | object => exact hobject
  | array => exact harray
  | string => exact hstring
  | entry => exact hentry
  | @super _ superName file' _ hload hsuper ih =>
    obtain ⟨c, hc, rfl⟩ := ih
    obtain ⟨file, super, hdefines⟩ := hdefined.defines c hc
    rw [hdefines.load] at hload
    cases hload
    have hname : c.superName = some (ClassName.slashed superName) := by rw [hdefines.declared, hsuper]; rfl
    exact hdefined.linked.ordered.super_mem hc hname
  | @reference _ reference file' _ hload hreference ih =>
    obtain ⟨c, hc, rfl⟩ := ih
    obtain ⟨file, super, hdefines⟩ := hdefined.defines c hc
    rw [hdefines.load] at hload
    cases hload
    obtain ⟨d, hd, hreference⟩ := List.mem_flatMap.1 hreference
    -- The methods of the class are those of its file, in the same order.
    have hall := declared_allocateMethods hdefines.methods
    obtain ⟨k, hk, rfl⟩ := List.getElem_of_mem hd
    have hk' := hall.length_eq ▸ hk
    refine hreferences c hc _ (List.getElem_mem hk') reference ?_
    have hdecl : c.methods[k].decl = file'.methods[k] := (hall.get hk hk').decl
    rwa [hdecl]

end JvmAot.Session
