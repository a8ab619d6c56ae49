import JvmAot.Proofs.Heap.Queries
import JvmAot.Proofs.Lowering.Failures
import JvmAot.Proofs.Session.FailedResolution

/-! # Nothing is asked for too late

A program is compiled in an open session, in which no request is refused for being late. The data is written in a
closed one. But its objects are vtables, strings with their characters, and metadata (`IsStock`), and the types of these
were resolved at the very start (`Stocked`), so the closed session has them (`compile_never_late`). -/

namespace JvmAot

/-- No request came too late, unless the loader itself says so. -/
def Failure.Timely (loader : Loader) (f : Failure) : Prop :=
  f.cause.isClosing = false ∨ ∃ name f', loader.load name = .error f' ∧ f'.cause = f.cause

/-- The failure of a text, if there is one, is no late request. -/
def Listing.Timely {σ : Type} (loader : Loader) (t : Listing σ) : Prop :=
  ∀ f, t.failure = some f → f.Timely loader

variable {loader : Loader} {failure : Failure}

namespace Listing

variable {σ : Type} {t : Listing σ} {next : σ → Listing σ}

theorem timely_of_none (h : t.failure = none) : t.Timely loader := by
  intro f hf
  rw [h] at hf
  cases hf

theorem Timely.prepend (h : t.Timely loader) (lines : List Line) : (t.prepend lines).Timely loader :=
  h

theorem Timely.append (h : t.Timely loader) (lines : List Line) : (t.append lines).Timely loader := by
  unfold Listing.append
  split
  · exact h
  · exact timely_of_none ‹_›

theorem Timely.within (h : t.Timely loader) (place : String) : (t.within place).Timely loader := by
  intro f hf
  obtain ⟨f', hf', rfl⟩ := Option.map_eq_some_iff.1 hf
  exact h f' hf'

theorem Timely.andThen (h : t.Timely loader) (hnext : (next t.state).Timely loader) :
    (t.andThen next).Timely loader := by
  unfold Listing.andThen
  split
  · exact h
  · exact hnext

end Listing

/-! ### Lowering -/

theorem Cause.isClosing_of_isOfLowering {cause : Cause} (h : cause.isOfLowering = true) : cause.isClosing = false := by
  cases cause <;> first | rfl | cases h

theorem Scope.failsBy_lower_isClosing (scope : Scope) (i : Instruction) :
    (scope.lower i).FailsBy (·.isClosing = false) := by
  refine (scope.failsBy_lower i).mono fun cause hfault => ?_
  cases hfault with
  | operands h => exact Cause.isClosing_of_isOfLowering h
  | opcode | target => rfl

namespace Session

variable {s s' : Session} {c : ClassInfo} {name descriptor className : String} {file : ClassFile}
  {super : Option ClassInfo}

/-! ### Open sessions -/

theorem Change.isOpen (h : Change loader s s') (hopen : ¬ s.isClosed) : ¬ s'.isClosed := by
  cases h with
  | @define name file super =>
    rcases grown_define name file super hopen with
      ⟨_, -, -, hgrown⟩ | ⟨_, -, -, hgrown⟩ <;> rw [hgrown.isClosed_eq] <;> exact hopen
  | defineArray | designate => exact hopen

theorem Step.isOpen (h : Step loader s s') (hopen : ¬ s.isClosed) : ¬ s'.isClosed := by
  cases h with
  | change hchange => exact hchange.isOpen hopen
  | string =>
    rw [stringObject_frame]
    exact hopen
  | label | fill => exact hopen

theorem Steps.isOpen (h : Steps loader s s') (hopen : ¬ s.isClosed) : ¬ s'.isClosed :=
  h.keep (P := fun s => ¬ s.isClosed) (fun hstep hopen => hstep.isOpen hopen) hopen

/-! ### Requests to open sessions -/

theorem timely_define (hopen : ¬ s.isClosed) (h : (s.define name file super).1 = .error failure) :
    failure.Timely loader :=
  .inl (Cause.isClosing_of_isOfLowering (define_unreadable hopen h).isOfLowering)

theorem timely_resolveClassWithin {fuel : Nat} (hopen : ¬ s.isClosed)
    (h : (resolveClassWithin loader fuel name s).1 = .error failure) : failure.Timely loader := by
  -- The session is open and stays so, which leaves the failures of the loader and of descriptors.
  fun_induction resolveClassWithin loader fuel name s with
  | case1 | case2 | case5 =>
    cases h
    exact .inl rfl
  | case3 => cases h
  | case4 _ _ _ _ _ _ hclosed => exact absurd hclosed hopen
  | case6 _ _ _ _ full _ _ _ failure' hload =>
    cases h
    exact .inr ⟨full, failure, hload, rfl⟩
  | case7 => exact timely_define hopen h
  | case8 _ _ _ _ _ _ _ _ _ _ _ _ _ _ heq ih =>
    cases h
    rw [heq] at ih
    exact ih hopen rfl
  | case9 fuel _ s _ full _ _ _ _ _ superName _ super s₁ heq =>
    have hresolves := resolves_resolveClassWithin loader fuel superName { s with resolving := full :: s.resolving }
    have hchanges := hresolves.changes
    rw [heq] at hchanges
    exact timely_define (s := { s₁ with resolving := s.resolving }) (hchanges.steps.isOpen hopen) h

theorem timely_resolveClass (hopen : ¬ s.isClosed) (h : s.resolveClass loader name = (.error failure, s')) :
    failure.Timely loader :=
  timely_resolveClassWithin hopen (congrArg Prod.fst h)

theorem timely_resolveArrayOf {leaf : FieldType} {dimension : Nat} (hopen : ¬ s.isClosed)
    (h : (resolveArrayOf loader leaf dimension s).1 = .error failure) : failure.Timely loader := by
  fun_induction resolveArrayOf loader leaf dimension s with
  | case1 | case3 =>
    cases h
    exact .inl rfl
  | case2 | case5 | case6 | case8 => cases h
  | case4 s _ _ _ _ _ hclass =>
    cases h
    exact timely_resolveClass hopen hclass
  | case7 _ s _ _ _ _ _ _ _ helement ih =>
    cases h
    rw [helement] at ih
    exact ih hopen rfl

theorem timely_resolveArray (hopen : ¬ s.isClosed) (h : (s.resolveArray loader descriptor).1 = .error failure) :
    failure.Timely loader := by
  unfold resolveArray at h
  split at h
  · cases h
  split at h
  · exact absurd ‹_› hopen
  split at h
  · rename_i hparse
    cases h
    exact .inl (Cause.isClosing_of_isOfLowering (FieldType.isOfLowering_of_parse hparse))
  split at h
  · exact timely_resolveArrayOf hopen h
  · cases h
    exact .inl rfl

theorem timely_resolveArrays {descriptors : List String} (hopen : ¬ s.isClosed)
    (h : (s.resolveArrays loader descriptors).1 = .error failure) : failure.Timely loader := by
  induction descriptors generalizing s with
  | nil => cases h
  | cons descriptor rest ih =>
    rcases hfirst : s.resolveArray loader descriptor with ⟨failure' | id, s₁⟩
    · simp only [resolveArrays, hfirst] at h
      cases h
      exact timely_resolveArray hopen (by rw [hfirst])
    · simp only [resolveArrays, hfirst] at h
      have hchanges := changes_resolveArray loader descriptor s
      rw [hfirst] at hchanges
      exact ih (hchanges.steps.isOpen hopen) h

theorem timely_bootstrap (hopen : ¬ s.isClosed) (h : (s.bootstrap loader).1 = .error failure) :
    failure.Timely loader := by
  rcases hobject : s.resolveClass loader objectClass with ⟨object, s₁⟩
  have hopen₁ : ¬ { s₁ with object := object.toOption }.isClosed := (changes_resolveClass hobject).steps.isOpen hopen
  rcases harray : { s₁ with object := object.toOption }.resolveClass loader arrayClass with ⟨array, s₂⟩
  have hopen₂ : ¬ { s₂ with array := array.toOption }.isClosed := (changes_resolveClass harray).steps.isOpen hopen₁
  rcases hstring : { s₂ with array := array.toOption }.resolveClass loader stringClass with ⟨string, s₃⟩
  have hopen₃ : ¬ { s₃ with string := string.toOption }.isClosed := (changes_resolveClass hstring).steps.isOpen hopen₂
  simp only [bootstrap, hobject, harray, hstring] at h
  cases object with
  | error =>
    cases h
    exact timely_resolveClass hopen hobject
  | ok =>
    cases array with
    | error =>
      cases h
      exact timely_resolveClass hopen₁ harray
    | ok =>
      cases string with
      | error =>
        cases h
        exact timely_resolveClass hopen₂ hstring
      | ok => exact timely_resolveArrays hopen₃ h

theorem timely_answerFor {α : Type} {owner : String} {answer : ClassTable → ClassInfo → Except Failure α}
    (hanswer : ∀ {classes c failure}, answer classes c = .error failure → failure.cause.isClosing = false)
    (hopen : ¬ s.isClosed) (h : (s.answerFor loader owner answer).1 = .error failure) : failure.Timely loader := by
  unfold answerFor at h
  split at h
  · rename_i hclass
    cases h
    exact timely_resolveClass hopen hclass
  · exact .inl (hanswer h)

theorem isClosing_newString {string : Option ClassInfo} {units : List UInt16} {heap : Heap}
    (h : newString string units heap = .error failure) : failure.cause.isClosing = false := by
  unfold newString at h
  split at h
  · cases h
    rfl
  · dsimp only at h
    split at h <;> cases h
    rfl

theorem timely_answer {q : Question} (hopen : ¬ s.isClosed) (h : (s.answer loader className q).1 = .error failure) :
    failure.Timely loader := by
  cases q with
  | field owner name =>
    refine timely_answerFor (fun {classes c failure} h => ?_) hopen h
    have h := map_eq_error h
    unfold ClassTable.findField at h
    dsimp only at h
    split at h <;> cases h
    rfl
  | method owner name descriptor =>
    refine timely_answerFor (fun {classes c failure} h => ?_) hopen h
    have h := map_eq_error h
    unfold ClassTable.findMethod at h
    dsimp only at h
    split at h <;> cases h
    rfl
  | instanceSize owner => exact timely_answerFor (fun h => by cases h) hopen h
  | arrayVtable descriptor =>
    simp only [answer] at h
    split at h
    · rename_i harray
      cases h
      exact timely_resolveArray hopen (by rw [harray])
    · cases h
  | stringLabel slot units =>
    simp only [answer] at h
    split at h
    · rename_i hstring
      cases h
      unfold stringObject at hstring
      split at hstring
      · cases hstring
      · split at hstring
        · rename_i hnew
          cases hstring
          exact .inl (isClosing_newString hnew)
        · cases hstring
    · cases h

/-! ### Texts -/

theorem timely_run {lowering : Lowering} {result : Lowered} (hlowering : lowering.FailsBy (·.isClosing = false))
    (hopen : ¬ s.isClosed) (h : lowering.run (context loader className) s = (result, s'))
    (hf : result.failure = some failure) : failure.Timely loader := by
  cases lowering with
  | done =>
    cases h
    exact .inl (hlowering failure hf)
  | ask q next =>
    rw [Lowering.run] at h
    split at h
    · cases h
      exact .inl (hlowering _ failure hf)
    · rename_i heq
      cases h
      cases hf
      exact timely_answer hopen (congrArg Prod.fst heq)

theorem timely_listing (scope : Scope) (instructions : List Instruction) (hopen : ¬ s.isClosed) :
    (scope.listing (context loader className) instructions s).Timely loader := by
  induction instructions generalizing s with
  | nil => exact Listing.timely_of_none rfl
  | cons i rest ih =>
    rcases hrun : (scope.lower i).run (context loader className) s with ⟨⟨code, failure⟩, s₁⟩
    rw [Scope.listing, hrun]
    cases failure with
    | some failure =>
      have htimely : failure.Timely loader := timely_run (scope.failsBy_lower_isClosing i) hopen hrun rfl
      intro f hf
      cases hf
      exact htimely
    | none => exact (ih ((steps_run hrun).isOpen hopen)).prepend _

theorem timely_methodListing (d : MethodDecl) (header : Int) (hopen : ¬ s.isClosed) :
    (d.listing (context loader className) header className s).Timely loader := by
  unfold MethodDecl.listing
  split
  · exact Listing.timely_of_none rfl
  split
  · rename_i hparse
    intro f hf
    cases hf
    exact .inl (Cause.isClosing_of_isOfLowering (MethodType.isOfLowering_of_parse hparse))
  split
  · intro f hf
    cases hf
    exact .inl rfl
  refine Listing.Timely.within ?_ _
  unfold MethodDecl.bodyListing
  split
  · intro f hf
    cases hf
    exact .inl rfl
  · exact ((timely_listing _ _ hopen).prepend _).append _

theorem timely_methodsListing (header : Nat) (methods : List MethodInfo) (hopen : ¬ s.isClosed) :
    (s.methodsListing loader header className methods).Timely loader := by
  induction methods generalizing s with
  | nil => exact Listing.timely_of_none rfl
  | cons m rest ih =>
    have hsteps : Steps loader s _ := steps_methodListing m.decl header className s
    exact (timely_methodListing m.decl header hopen).andThen (ih (hsteps.isOpen hopen))

theorem timely_classListing (c : ClassInfo) (hopen : ¬ s.isClosed) : (s.classListing loader c).Timely loader := by
  unfold classListing
  refine Listing.Timely.within ?_ _
  split
  · rename_i hheader
    intro f hf
    cases hf
    unfold arrayHeaderSize at hheader
    split at hheader <;> cases hheader
    exact .inl rfl
  · exact ((timely_methodsListing _ _ hopen).prepend _).andThen (Listing.timely_of_none rfl)

theorem timely_classesListing {classes : List ClassInfo} (h : ∀ c ∈ classes, c ∈ s.classes.latest)
    (hopen : ¬ s.isClosed) : (s.classesListing loader classes).Timely loader := by
  induction classes generalizing s with
  | nil => exact Listing.timely_of_none rfl
  | cons c rest ih =>
    have hsteps : Steps loader s _ := steps_classListing (h c (List.mem_cons_self ..))
    refine (timely_classListing c hopen).andThen (ih (fun d hd => ?_) (hsteps.isOpen hopen))
    exact hsteps.mem_classes (h d (List.mem_cons_of_mem _ hd))

theorem timely_compileClass (loader : Loader) (hc : c ∈ s.classes.latest) (hopen : ¬ s.isClosed) :
    (s.compileClass loader c).Timely loader ∧ ¬ (s.compileClass loader c).state.isClosed := by
  obtain ⟨names, hsteps⟩ := steps_compileClass loader hc
  refine ⟨timely_classesListing (fun k hk => ?_) hopen, hsteps.isOpen hopen⟩
  exact ClassTable.mem_of_mem_chain hc (List.takeWhile_subset _ (List.mem_reverse.1 hk))

theorem timely_compileFrom (fuel next : Nat) (hopen : ¬ s.isClosed) :
    (s.compileFrom loader fuel next).Timely loader := by
  induction fuel generalizing next s with
  | zero =>
    intro f hf
    cases hf
    exact .inl rfl
  | succ fuel ih =>
    rw [compileFrom]
    split
    · exact Listing.timely_of_none rfl
    · rename_i c hc
      have hmem := ClassTable.mem_order.1 (List.mem_of_getElem? hc)
      obtain ⟨hfirst, hopen₁⟩ := timely_compileClass loader hmem hopen
      exact hfirst.andThen (ih _ hopen₁)

/-! ### The types of objects -/

/-- The kinds of objects that a session makes: characters, vtables, strings and metadata. -/
def IsStock : Object → Prop
  | .primitiveArray element _ => element = .char
  | .objectArray type _ => type = Heap.vtableType
  | .ofClass name _ => name = stringClass
  | .metadata _ => True

/-- The types of such objects are resolved. -/
structure Stocked (s : Session) : Prop where
  characters : (s.arrays.lookup (Object.primitiveArrayType .char)).isSome
  vtables : (s.arrays.lookup Heap.vtableType).isSome
  strings : (s.classes.find? stringClass).isSome

theorem each_newMetadata {h h' : Heap} {m : Metadata} {id : ObjectId} (hh : h.Each IsStock)
    (heq : h.newMetadata m = (id, h')) : h'.Each IsStock := by
  unfold Heap.newMetadata at heq
  split at heq
  · cases heq
    exact hh.allocate trivial
  · cases heq
    exact Heap.Each.allocate (hh.allocate (o := .objectArray Heap.vtableType []) rfl) trivial

theorem each_setVtable {h : Heap} (hh : h.Each IsStock) (id : ObjectId) (entries : List Value) :
    (h.setVtable id entries).Each IsStock := by
  unfold Heap.setVtable
  split
  · exact hh.set rfl
  · exact hh

theorem each_newString {P : Object → Prop} {string : Option ClassInfo} {units : List UInt16} {h h' : Heap}
    {id : ObjectId} (hcharacters : P (.characters units)) (hstring : ∀ fields, P (.ofClass stringClass fields))
    (heq : newString string units h = .ok (id, h')) (hh : h.Each P) : h'.Each P := by
  obtain ⟨field, hheap⟩ := newString_of_ok heq
  cases hheap
  exact (hh.allocate hcharacters).allocate (hstring _)

theorem Change.each (h : Change loader s s') (hs : s.heap.Each IsStock) : s'.heap.Each IsStock := by
  cases h with
  | @define name file super =>
    rcases define_cases name file super s with ⟨_, heq⟩ | ⟨_, _, _, heq, -, -, -, -, -, hnew⟩ <;> rw [heq]
    · exact hs
    · exact each_newMetadata hs hnew
  | defineArray => exact each_setVtable (each_newMetadata hs rfl) _ _
  | designate => exact hs

theorem Step.each (h : Step loader s s') (hs : s.heap.Each IsStock) : s'.heap.Each IsStock := by
  cases h with
  | change hchange => exact hchange.each hs
  | label => exact hs
  | string className slot units =>
    unfold stringObject
    split
    · exact hs
    split
    · exact hs
    rename_i hnew
    exact each_newString rfl (fun _ => rfl) hnew hs
  | fill => exact each_setVtable hs _ _

theorem Stocked.mono (hs : s.Stocked) (harrays : ∀ d, (s.arrays.lookup d).isSome → (s'.arrays.lookup d).isSome)
    (hclasses : ∀ n, (s.classes.find? n).isSome → (s'.classes.find? n).isSome) : s'.Stocked :=
  ⟨harrays _ hs.characters, harrays _ hs.vtables, hclasses _ hs.strings⟩

theorem Change.stocked (h : Change loader s s') (hs : s.Stocked) : s'.Stocked := by
  refine hs.mono (fun d hsome => ?_) fun n hsome => ?_
  · cases h with
    | define => rwa [arrays_define]
    | @defineArray object descriptor element elementType =>
      rcases harray : s.defineArray object descriptor element elementType with ⟨id, s₁⟩
      rw [lookup_defineArray harray]
      split
      · rfl
      · exact hsome
    | designate => exact hsome
  · obtain ⟨c, hc⟩ := Option.isSome_iff_exists.1 hsome
    rw [h.find?_classes hc]
    rfl

theorem Step.stocked (h : Step loader s s') (hs : s.Stocked) : s'.Stocked := by
  cases h with
  | change hchange => exact hchange.stocked hs
  | string =>
    rw [stringObject_frame]
    exact hs.mono (fun _ => id) fun _ => id
  | label | fill => exact hs.mono (fun _ => id) fun _ => id

theorem lookup_of_resolveArrays {descriptors : List String} (h : s.resolveArrays loader descriptors = (.ok (), s'))
    (d : String) (hd : d ∈ descriptors ∨ (s.arrays.lookup d).isSome) : (s'.arrays.lookup d).isSome := by
  induction descriptors generalizing s with
  | nil =>
    cases h
    simpa using hd
  | cons descriptor rest ih =>
    have henters := enters_resolveArray loader descriptor s
    rcases hfirst : s.resolveArray loader descriptor with ⟨failure | id, s₁⟩
    · simp only [resolveArrays, hfirst] at h
      cases h
    · simp only [resolveArrays, hfirst] at h
      rw [hfirst] at henters
      refine ih h ?_
      rcases hd with hd | hd
      · rcases List.mem_cons.1 hd with rfl | hd
        · exact .inr (by rw [henters.self id rfl]; rfl)
        · exact .inl hd
      · obtain ⟨id', hid'⟩ := Option.isSome_iff_exists.1 hd
        exact .inr (by rw [henters.kept d id' hid']; rfl)

/-- The start of every compilation resolves the types that objects can have. -/
theorem stocked_bootstrap (h : s.bootstrap loader = (.ok (), s')) : s'.Stocked := by
  rcases hobject : s.resolveClass loader objectClass with ⟨failure | object, s₁⟩
  · simp [bootstrap, hobject] at h
  rcases harray : { s₁ with object := some object }.resolveClass loader arrayClass with ⟨failure | array, s₂⟩
  · simp [bootstrap, hobject, harray, Except.toOption] at h
  rcases hstring : { s₂ with array := some array }.resolveClass loader stringClass with ⟨failure | string, s₃⟩
  · simp [bootstrap, hobject, harray, hstring, Except.toOption] at h
  simp only [bootstrap, hobject, harray, hstring, Except.toOption] at h
  have harrays := lookup_of_resolveArrays h
  refine ⟨harrays _ (.inl (by decide)), harrays _ (.inl (by decide)), ?_⟩
  -- The class of strings was resolved before the array types, and classes stay.
  have hfind : s₃.classes.find? stringClass = some string := find?_resolveClass hstring (by cbv) rfl
  have hchanges := changes_resolveArrays loader (primitiveArrays ++ [Heap.vtableType]) { s₃ with string := some string }
  rw [h] at hchanges
  have hkept := hchanges.keep (P := fun s => s.classes.find? stringClass = some string)
    (fun hchange hc => hchange.find?_classes hc) hfind
  rw [hkept]
  rfl

/-! ### The program -/

/-- The texts of the classes of a program, before its data. -/
def codeListing (loader : Loader) (entry : String) (s : Session) : Listing Session :=
  match s.bootstrap loader with
  | (.error failure, s) => .fail failure s
  | (.ok _, s) =>
    match s.resolveClass loader entry with
    | (.error failure, s) => .fail failure s
    | (.ok c, s) => (s.compileClass loader c).andThen (compileFrom loader (loader.limit + 1) 0)

theorem compile_eq (prologue : ByteArray) (entry : String) :
    s.compile loader prologue entry =
      ((s.codeListing loader entry).andThen fun s => s.close.dataLines loader).prepend [.raw prologue] := by
  rcases hstart : s.bootstrap loader with ⟨failure | _, s₁⟩
  · simp only [compile, codeListing, hstart]
    rfl
  rcases hentry : s₁.resolveClass loader entry with ⟨failure | c, s₂⟩
  · simp only [compile, codeListing, hstart, hentry]
    rfl
  · simp only [compile, codeListing, hstart, hentry]

theorem timely_codeListing {entry : String} (hopen : ¬ s.isClosed) : (s.codeListing loader entry).Timely loader := by
  have hboot := changes_bootstrap loader s
  unfold codeListing
  split
  · rename_i hfails
    intro f hf
    cases hf
    exact timely_bootstrap hopen (by rw [hfails])
  rename_i s₁ hstart
  rw [hstart] at hboot
  have hopen₁ := hboot.steps.isOpen hopen
  split
  · rename_i hfails
    intro f hf
    cases hf
    exact timely_resolveClass hopen₁ hfails
  rename_i c s₂ hentry
  have hc := ClassTable.mem_of_find? (find?_of_resolveClass hentry)
  obtain ⟨hfirst, hopen₃⟩ :=
    timely_compileClass loader hc ((changes_resolveClass hentry).steps.isOpen hopen₁)
  exact hfirst.andThen (timely_compileFrom _ _ hopen₃)

section
variable {P : Session → Prop}

theorem keep_compileClass (hstep : ∀ {s s'}, Step loader s s' → P s → P s')
    (hmark : ∀ {s} names, P s → P { s with compiled := names ++ s.compiled }) (hc : c ∈ s.classes.latest) (hs : P s) :
    P (s.compileClass loader c).state := by
  obtain ⟨names, hsteps⟩ := steps_compileClass loader hc
  exact hsteps.keep hstep (hmark names hs)

theorem keep_compileFrom (hstep : ∀ {s s'}, Step loader s s' → P s → P s')
    (hmark : ∀ {s} names, P s → P { s with compiled := names ++ s.compiled }) (fuel next : Nat) (hs : P s) :
    P (s.compileFrom loader fuel next).state := by
  induction fuel generalizing next s with
  | zero => exact hs
  | succ fuel ih =>
    rw [compileFrom]
    split
    · exact hs
    · rename_i c hc
      have hfirst := keep_compileClass hstep hmark (ClassTable.mem_order.1 (List.mem_of_getElem? hc)) hs
      exact Listing.state_andThen hfirst (ih _ hfirst)

end

/-- All that the data of a program can ask for is resolved. -/
structure Prepared (loader : Loader) (s : Session) : Prop where
  stocked : s.Stocked
  each : s.heap.Each IsStock
  linked : s.classes.Linked loader

theorem Step.prepared (h : Step loader s s') (hs : s.Prepared loader) : s'.Prepared loader :=
  ⟨h.stocked hs.stocked, h.each hs.each, h.linked hs.linked⟩

theorem Steps.prepared (h : Steps loader s s') (hs : s.Prepared loader) : s'.Prepared loader :=
  h.keep (P := Prepared loader) (fun hstep hs => hstep.prepared hs) hs

theorem Prepared.mark (hs : s.Prepared loader) (names : List String) :
    Prepared loader { s with compiled := names ++ s.compiled } :=
  ⟨hs.stocked.mono (fun _ => id) fun _ => id, hs.each, hs.linked⟩

theorem Prepared.close (hs : s.Prepared loader) : s.close.Prepared loader :=
  ⟨hs.stocked.mono (fun _ => id) fun _ => id, hs.each, hs.linked⟩

theorem prepared_codeListing {entry : String} (hf : (({} : Session).codeListing loader entry).failure = none) :
    (({} : Session).codeListing loader entry).state.Prepared loader := by
  have hboot := changes_bootstrap loader {}
  unfold codeListing at hf ⊢
  rcases hstart : ({} : Session).bootstrap loader with ⟨failure | _, s₁⟩
  · simp [hstart, Listing.fail] at hf
  rcases hentry : s₁.resolveClass loader entry with ⟨failure | c, s₂⟩
  · simp [hstart, hentry, Listing.fail] at hf
  rw [hstart] at hboot
  have hprepared : s₁.Prepared loader := by
    refine ⟨stocked_bootstrap hstart, ?_, (Reached.start.steps hboot.steps).linked⟩
    exact hboot.keep (P := fun s => s.heap.Each IsStock) (fun hchange hs => hchange.each hs) .empty
  have hc := ClassTable.mem_of_find? (find?_of_resolveClass hentry)
  have hfirst : (s₂.compileClass loader c).state.Prepared loader :=
    keep_compileClass (fun hstep hs => hstep.prepared hs) (fun names hs => hs.mark names) hc
      ((changes_resolveClass hentry).steps.prepared hprepared)
  simp only [hentry]
  refine Listing.state_andThen (P := Prepared loader) hfirst ?_
  exact keep_compileFrom (fun hstep hs => hstep.prepared hs) (fun names hs => hs.mark names) _ _ hfirst

/-! ### The data -/

/-- The array types that a session has resolved. -/
def HasArray (s : Session) (descriptor : String) : Prop :=
  (s.arrays.lookup descriptor).isSome

/-- The classes that a session has resolved. -/
def HasClass (s : Session) (name : String) : Prop :=
  (s.classes.find? name).isSome

theorem IsStock.within {o : Object} (ho : IsStock o) (hs : s.Stocked) : o.Within s.HasArray s.HasClass := by
  cases o with
  | primitiveArray element values =>
    obtain rfl : element = .char := ho
    refine ⟨fun d hd => ?_, fun n hn => (by cases hn)⟩
    cases hd
    exact hs.characters
  | objectArray type elements =>
    obtain rfl : type = Heap.vtableType := ho
    refine ⟨fun d hd => ?_, fun n hn => (by cases hn)⟩
    cases hd
    exact hs.vtables
  | ofClass name fields =>
    obtain rfl : name = stringClass := ho
    refine ⟨fun d hd => (by cases hd), fun n hn => ?_⟩
    cases hn
    exact hs.strings
  | metadata m => exact .metadata m

theorem Prepared.within (hs : s.Prepared loader) : s.heap.Each (Object.Within s.HasArray s.HasClass) :=
  hs.each.mono fun _ ho => ho.within hs.stocked

theorem Prepared.serves (hs : s.Prepared loader) : (s.objectResolver loader).Serves s.HasArray s.HasClass := by
  refine ⟨fun d hd => ?_, fun n hn => ?_, fun hnew hh => ?_, isClosing_newString⟩
  · obtain ⟨id, hid⟩ := Option.isSome_iff_exists.1 hd
    exact ⟨id, by simp only [objectResolver, resolveArray, hid]⟩
  · obtain ⟨c, hc⟩ := Option.isSome_iff_exists.1 hn
    have hmem := ClassTable.mem_of_find? hc
    have hname := ClassTable.name_of_find? hc
    obtain ⟨file, super, hbuilds⟩ := hs.linked.builds c hmem
    -- Names in the table have slashes, so a class with such a name is found without asking the loader.
    have hform : ClassName.slashed n = c.name := by rw [← hname, hbuilds.name.1]
    refine ⟨objectLayout s.classes c, ?_⟩
    simp only [objectResolver, resolveClass_of_mem hs.linked hmem hform]
    rfl
  · refine each_newString ?_ (fun fields => ?_) hnew hh
    · exact IsStock.within rfl hs.stocked
    · exact IsStock.within rfl hs.stocked

theorem Prepared.timely_dataLines (hs : s.Prepared loader) : (s.dataLines loader).Timely loader := by
  have hsteps : Steps loader s (aliasLines s.classes.order s).2 := steps_aliasLines s.classes.order s
  have hnext := hsteps.prepared hs
  rcases haliases : aliasLines s.classes.order s with ⟨aliases, s₁⟩
  rw [haliases] at hnext
  have hclosing := (Emission.all_serves (e := { heap := s₁.heap, labels := s₁.labels }) hnext.serves hnext.within).2
  rcases hall : Emission.all (s₁.objectResolver loader) { heap := s₁.heap, labels := s₁.labels } with ⟨e, failure⟩
  rw [hall] at hclosing
  simp only [dataLines, haliases, hall]
  refine Listing.Timely.append (Listing.Timely.prepend ?_ _) _
  exact fun f hf => .inl (hclosing f hf)

/-- A compilation fails for a request that came too late only if the loader says so. In the session in which the data is
written, every object has a type that is resolved, those included that are made on the way, and who answers for
the resolved types like the session makes all the data the same. -/
theorem compile_never_late (loader : Loader) (prologue : ByteArray) (entry : String) {code : Listing Session}
    (hcode : ({} : Session).codeListing loader entry = code) :
    ({} : Session).compile loader prologue entry =
        (code.andThen fun s => s.close.dataLines loader).prepend [.raw prologue] ∧
      (∀ f, (({} : Session).compile loader prologue entry).failure = some f → f.Timely loader) ∧
      (code.failure = none → ∀ labels : LabelTable,
        (∀ i o,
          (Emission.all (code.state.close.objectResolver loader) { heap := code.state.heap, labels }).1.heap.get? i =
            some o → o.Within code.state.HasArray code.state.HasClass) ∧
        ∀ r, (code.state.close.objectResolver loader).Agree code.state.HasArray code.state.HasClass r →
          Emission.all r { heap := code.state.heap, labels } =
            Emission.all (code.state.close.objectResolver loader) { heap := code.state.heap, labels }) := by
  subst hcode
  refine ⟨compile_eq prologue entry, ?_, fun hf labels => ?_⟩
  · rw [compile_eq]
    refine Listing.Timely.prepend ?_ _
    unfold Listing.andThen
    have hcode : (({} : Session).codeListing loader entry).Timely loader := timely_codeListing (by decide)
    split
    · exact hcode
    · rename_i hf
      exact (prepared_codeListing hf).close.timely_dataLines.prepend _
  · have hprepared := (prepared_codeListing hf).close
    refine ⟨(Emission.all_serves hprepared.serves hprepared.within).1, fun r hr => ?_⟩
    exact (Emission.all_congr hprepared.serves hr hprepared.within).symm

/-- Strings have no room for characters here. -/
def mute : Loader where
  load
    | "java/lang/Object" => .ok (fileOf "java/lang/Object" none [⟨⟨0⟩, "vtable", "I"⟩])
    | "java/lang/Array" =>
      .ok (fileOf "java/lang/Array" (some "java/lang/Object") [⟨⟨0⟩, "length", "I"⟩])
    | "java/lang/String" => .ok (fileOf "java/lang/String" (some "java/lang/Object") [])
    | name => .error (Cause.classNotFound name : Failure)
  limit := 3

/-- The data fails for the names of classes, and not for lack of a type. -/
theorem mute_fails_in_data :
    (({} : Session).codeListing mute "java/lang/Object").failure = none ∧
      (({} : Session).compile mute ByteArray.empty "java/lang/Object").failure =
        some { cause := .noCharactersField stringClass } ∧
      Failure.Timely mute { cause := .noCharactersField stringClass } ∧
      (Emission.all ((({} : Session).codeListing mute "java/lang/Object").state.close.objectResolver mute)
        { heap := (({} : Session).codeListing mute "java/lang/Object").state.heap, labels := {} }).1.heap.Each
          (Object.Within (({} : Session).codeListing mute "java/lang/Object").state.HasArray
            (({} : Session).codeListing mute "java/lang/Object").state.HasClass) := by
  obtain ⟨hcode, hfails⟩ : (({} : Session).codeListing mute "java/lang/Object").failure = none ∧
      (({} : Session).compile mute ByteArray.empty "java/lang/Object").failure =
        some { cause := .noCharactersField stringClass } := by decide +kernel
  obtain ⟨-, htimely, hdata⟩ := compile_never_late mute ByteArray.empty "java/lang/Object" rfl
  exact ⟨hcode, hfails, htimely _ hfails, (hdata hcode {}).1⟩

end Session

end JvmAot
