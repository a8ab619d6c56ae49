import JvmAot.Session.Resolve
import JvmAot.Proofs.Session.Hierarchy
import Mathlib.Logic.Relation

/-! # What resolution does to a session

`Resolves` says how the resolution of a class goes, without the bound on its depth, and `Change` is the one
thing that it, and the resolution of arrays, do to a session again and again: add a class under a name that
is not taken, after its superclass, or add an array type. `Reachable.induct`: what holds of a new session and
is kept by every change holds of all sessions that calls lead to, whether the calls succeed or fail. -/

namespace JvmAot.Session

variable {loader : Loader} {s s' : Session} {name n : String} {file : ClassFile} {super : Option ClassInfo}
  {c : ClassInfo}

/-! ### Adding a class -/

/-- A class that was added has the fields and methods of its file. Without success only the pool of static
fields has changed. -/
theorem define_cases (name : String) (file : ClassFile) (super : Option ClassInfo) (s : Session) :
    (∃ failure, s.define name file super = (.error failure,
        { s with
          statics := (allocateFields name file.fields ((super.map (·.layout)).getD {}) s.statics).2 })) ∨
      ∃ c statics heap, s.define name file super =
          (.ok c, { s with statics, heap, classes := s.classes.insert c }) ∧
        c.name = name ∧ c.superName = super.map (·.name) ∧ c.flags = file.flags ∧
        allocateFields name file.fields ((super.map (·.layout)).getD {}) s.statics =
          (.ok (c.fields, c.layout), statics) ∧
        allocateMethods name 0 file.methods ((super.map (·.vtable)).getD {}) = .ok (c.methods, c.vtable) ∧
        s.heap.newMetadata (if file.flags.isInterface then { kind := .interfaceType, name }
          else { kind := .classType, name, parent := super.map (·.metadata) }) = (c.metadata, heap) := by
  simp only [define]
  generalize allocateFields name file.fields ((super.map (·.layout)).getD {}) s.statics = allocated
  generalize allocateMethods name 0 file.methods ((super.map (·.vtable)).getD {}) = table
  obtain ⟨failure | ⟨fields, layout⟩, statics⟩ := allocated
  · exact .inl ⟨failure, rfl⟩
  · obtain failure | ⟨methods, vtable⟩ := table
    · exact .inl ⟨failure, rfl⟩
    · exact .inr ⟨_, _, _, rfl, rfl, rfl, rfl, rfl, rfl, rfl⟩

theorem find?_define_of_ne (h : s.classes.find? n = none) (hn : name ≠ n) :
    (s.define name file super).2.classes.find? n = none := by
  rcases define_cases name file super s with ⟨_, heq⟩ | ⟨c, _, _, heq, rfl, -⟩
  · rw [heq]; exact h
  · rw [heq]
    simp only [ClassTable.find?_insert, if_neg hn]
    exact h

theorem find?_define_of_ok (h : (s.define name file super).1 = .ok c) :
    (s.define name file super).2.classes.find? name = some c := by
  rcases define_cases name file super s with ⟨_, heq⟩ | ⟨d, _, _, heq, rfl, -⟩
  · rw [heq] at h; cases h
  · rw [heq] at h ⊢
    cases h
    simp only [ClassTable.find?_insert, if_pos]

theorem define_resolving (resolving : List String) (name : String) (file : ClassFile)
    (super : Option ClassInfo) (s : Session) :
    { s with resolving }.define name file super =
      ((s.define name file super).1, { (s.define name file super).2 with resolving }) := by
  simp only [define]
  split
  · rfl
  · split <;> rfl

/-! ### Resolving a class -/

/-- The class with a name in slash form is not there yet, nothing stands in the way of adding it, and the
loader has its file. -/
structure Begins (loader : Loader) (name : String) (file : ClassFile) (s : Session) : Prop where
  fresh : s.classes.find? name = none
  isOpen : ¬ s.isClosed
  acyclic : name ∉ s.resolving
  load : loader.load name = .ok file
  isClass : ¬ ClassName.isArray name

/-- Why the resolution of a class ends before its superclass and its members are looked at. -/
inductive Refused (loader : Loader) (name : String) (s : Session) : Failure → Prop
  | exhausted : Refused loader name s (Cause.loaderExhausted : Failure)
  | array (h : ClassName.isArray name) : Refused loader name s (Cause.arrayAsClass name : Failure)
  | closed (hfresh : s.classes.find? (ClassName.slashed name) = none) (h : s.isClosed) :
      Refused loader name s (Cause.classResolutionClosed (ClassName.slashed name) : Failure)
  | circular (hfresh : s.classes.find? (ClassName.slashed name) = none) (h : ClassName.slashed name ∈ s.resolving) :
      Refused loader name s (Cause.circularSuperclass (ClassName.slashed name) : Failure)
  | missing {failure : Failure} (hfresh : s.classes.find? (ClassName.slashed name) = none)
      (h : loader.load (ClassName.slashed name) = .error failure) : Refused loader name s failure

/-- How the resolution of a class goes. -/
inductive Resolves (loader : Loader) : String → Session → Except Failure ClassInfo × Session → Prop
  | fails {name : String} {s : Session} {failure : Failure} (h : Refused loader name s failure) :
      Resolves loader name s (.error failure, s)
  | found {name : String} {s : Session} {c : ClassInfo} (h : s.classes.find? (ClassName.slashed name) = some c) :
      Resolves loader name s (.ok c, s)
  | root {name : String} {s : Session} {file : ClassFile} (h : Begins loader (ClassName.slashed name) file s)
      (hsuper : file.superName = none) : Resolves loader name s (s.define (ClassName.slashed name) file none)
  | superFails {name superName : String} {s s' : Session} {file : ClassFile} {failure : Failure}
      (h : Begins loader (ClassName.slashed name) file s) (hsuper : file.superName = some superName)
      (hresolves : Resolves loader superName { s with resolving := ClassName.slashed name :: s.resolving }
        (.error failure, s')) :
      Resolves loader name s (.error failure, { s' with resolving := s.resolving })
  | derived {name superName : String} {s s' : Session} {file : ClassFile} {super : ClassInfo}
      (h : Begins loader (ClassName.slashed name) file s) (hsuper : file.superName = some superName)
      (hresolves : Resolves loader superName { s with resolving := ClassName.slashed name :: s.resolving }
        (.ok super, s')) :
      Resolves loader name s ({ s' with resolving := s.resolving }.define (ClassName.slashed name) file (some super))

theorem resolves_resolveClassWithin (loader : Loader) (fuel : Nat) (name : String) (s : Session) :
    Resolves loader name s (resolveClassWithin loader fuel name s) := by
  fun_induction resolveClassWithin loader fuel name s with
  | case1 => exact .fails .exhausted
  | case2 _ _ _ harray => exact .fails (.array harray)
  | case3 fuel name s _ full c hfound => exact .found hfound
  | case4 _ _ _ _ _ hfresh hclosed => exact .fails (.closed hfresh hclosed)
  | case5 _ _ _ _ _ hfresh _ hcircular => exact .fails (.circular hfresh (List.contains_iff_mem.1 hcircular))
  | case6 _ _ _ _ _ hfresh _ _ _ hload => exact .fails (.missing hfresh hload)
  | case7 fuel name s hclass full hfresh hopen hacyclic file hload hsuper =>
    exact .root ⟨hfresh, hopen, by simpa using hacyclic, hload, by rwa [ClassName.isArray_slashed]⟩ hsuper
  | case8 fuel name s hclass full hfresh hopen hacyclic file hload superName hsuper failure s' heq ih =>
    exact .superFails ⟨hfresh, hopen, by simpa using hacyclic, hload, by rwa [ClassName.isArray_slashed]⟩ hsuper
      (heq ▸ ih)
  | case9 fuel name s hclass full hfresh hopen hacyclic file hload superName hsuper super s' heq ih =>
    exact .derived ⟨hfresh, hopen, by simpa using hacyclic, hload, by rwa [ClassName.isArray_slashed]⟩ hsuper
      (heq ▸ ih)

namespace Resolves
variable {r : Except Failure ClassInfo × Session}

theorem find?_of_ok (h : Resolves loader name s r) (hr : r.1 = .ok c) :
    r.2.classes.find? (ClassName.slashed name) = some c := by
  cases h with
  | fails | superFails => cases hr
  | found hfound => cases hr; exact hfound
  | root | derived => exact find?_define_of_ok hr

/-- No class is added while its own resolution has not ended. -/
theorem find?_of_resolving (h : Resolves loader name s r) (hn : n ∈ s.resolving)
    (hnone : s.classes.find? n = none) : r.2.classes.find? n = none := by
  induction h with
  | fails | found => exact hnone
  | root h _ => exact find?_define_of_ne hnone fun heq => h.acyclic (heq ▸ hn)
  | superFails _ _ _ ih => exact ih (List.mem_cons_of_mem _ hn) hnone
  | derived h _ _ ih =>
    exact find?_define_of_ne (ih (List.mem_cons_of_mem _ hn) hnone) fun heq => h.acyclic (heq ▸ hn)

end Resolves

/-! ### Changes -/

/-- One change that resolution makes to a session. -/
inductive Change (loader : Loader) : Session → Session → Prop
  | define {s : Session} {name : String} {file : ClassFile} {super : Option ClassInfo}
      (hform : ClassName.slashed name = name ∧ ¬ ClassName.isArray name)
      (hload : loader.load name = .ok file) (hfresh : s.classes.find? name = none)
      (hname : super.map (·.name) = file.superName.map ClassName.slashed)
      (hsuper : ∀ c, super = some c → c ∈ s.classes.latest) : Change loader s (s.define name file super).2
  | defineArray {s : Session} {object : ClassInfo} {descriptor : String} {element : Option ObjectId}
      {elementType : Option BaseType} (hobject : s.object = some object) :
      Change loader s (s.defineArray object descriptor element elementType).2
  /-- A class is set as the root class, or as that of arrays or strings, if it has the name. -/
  | designate {s : Session} {object array string : Option ClassInfo}
      (hobject : ∀ c, object = some c → s.object = some c ∨ s.classes.find? objectClass = some c)
      (harray : ∀ c, array = some c → s.array = some c ∨ s.classes.find? arrayClass = some c)
      (hstring : ∀ c, string = some c → s.string = some c ∨ s.classes.find? stringClass = some c) :
      Change loader s { s with object, array, string }

/-- Any number of changes. -/
def Changes (loader : Loader) : Session → Session → Prop :=
  Relation.ReflTransGen (Change loader)

theorem Change.changes (h : Change loader s s') : Changes loader s s' :=
  .single h

theorem Changes.refl : Changes loader s s :=
  Relation.ReflTransGen.refl

theorem Changes.trans {s'' : Session} (h : Changes loader s s') (h' : Changes loader s' s'') :
    Changes loader s s'' :=
  Relation.ReflTransGen.trans h h'

theorem Change.set_resolving (resolving : List String) (h : Change loader s s') :
    Change loader { s with resolving } { s' with resolving } := by
  cases h with
  | @define name file super hform hload hfresh hname hsuper =>
    have := Change.define (s := { s with resolving }) hform hload hfresh hname hsuper
    rwa [define_resolving] at this
  | defineArray hobject => exact .defineArray hobject
  | designate hobject harray hstring => exact .designate hobject harray hstring

theorem Changes.set_resolving (resolving : List String) (h : Changes loader s s') :
    Changes loader { s with resolving } { s' with resolving } := by
  induction h with
  | refl => exact .refl
  | tail _ hchange ih => exact ih.trans (hchange.set_resolving resolving).changes

theorem Resolves.changes {r : Except Failure ClassInfo × Session} (h : Resolves loader name s r) :
    Changes loader s r.2 := by
  induction h with
  | fails | found => exact .refl
  | root h hsuper =>
    exact (Change.define ⟨ClassName.slashed_slashed _, h.isClass⟩ h.load h.fresh (by simp [hsuper]) (by simp)).changes
  | superFails _ _ _ ih => exact ih.set_resolving _
  | @derived name superName s s' file super h hsuper hresolves ih =>
    have hfound := hresolves.find?_of_ok rfl
    have hfresh := hresolves.find?_of_resolving (List.mem_cons_self ..) h.fresh
    refine (ih.set_resolving s.resolving).trans (Change.changes ?_)
    refine .define ⟨ClassName.slashed_slashed _, h.isClass⟩ h.load hfresh ?_ ?_
    · rw [hsuper]
      exact congrArg some (ClassTable.name_of_find? hfound)
    · rintro _ ⟨⟩
      exact ClassTable.mem_of_find? hfound

section
variable {result : Except Failure ClassInfo}

theorem changes_resolveClass (h : s.resolveClass loader name = (result, s')) : Changes loader s s' := by
  have := (resolves_resolveClassWithin loader (loader.limit + 1) name s).changes
  rwa [← resolveClass, h] at this

theorem find?_of_resolveClass (h : s.resolveClass loader name = (.ok c, s')) :
    s'.classes.find? (ClassName.slashed name) = some c := by
  have := (resolves_resolveClassWithin loader (loader.limit + 1) name s).find?_of_ok (c := c)
  rw [← resolveClass, h] at this
  exact this rfl

theorem find?_resolveClass (h : s.resolveClass loader name = (result, s')) (hname : ClassName.slashed name = name)
    (hc : result.toOption = some c) : s'.classes.find? name = some c := by
  cases result with
  | error => cases hc
  | ok d => cases hc; exact hname ▸ find?_of_resolveClass h

end

theorem object_define : (s.define name file super).2.object = s.object := by
  rcases define_cases name file super s with ⟨_, heq⟩ | ⟨_, _, _, heq, -⟩ <;> rw [heq]

/-- Resolving classes does not set the root class. -/
theorem object_resolveClass {result : Except Failure ClassInfo} (h : s.resolveClass loader name = (result, s')) :
    s'.object = s.object := by
  have hkeeps {name : String} {s : Session} {r : Except Failure ClassInfo × Session}
      (h : Resolves loader name s r) : r.2.object = s.object := by
    induction h with
    | fails | found => rfl
    | root => exact object_define
    | superFails _ _ _ ih => exact ih
    | derived _ _ _ ih => exact object_define.trans ih
  have := hkeeps (resolves_resolveClassWithin loader (loader.limit + 1) name s)
  rwa [← resolveClass, h] at this

theorem changes_defineArray (loader : Loader) {object : ClassInfo} {descriptor : String} {element : Option ObjectId}
    {elementType : Option BaseType} {metadata : ObjectId} (hobject : s.object = some object)
    (h : s.defineArray object descriptor element elementType = (metadata, s')) :
    Changes loader s s' ∧ s'.object = s.object := by
  have hchange : Change loader s (s.defineArray object descriptor element elementType).2 := .defineArray hobject
  obtain rfl : (s.defineArray object descriptor element elementType).2 = s' := by rw [h]
  exact ⟨hchange.changes, rfl⟩

theorem changes_resolveArrayOf (leaf : FieldType) (dimension : Nat) (s : Session) :
    Changes loader s (resolveArrayOf loader leaf dimension s).2 ∧
      (resolveArrayOf loader leaf dimension s).2.object = s.object := by
  fun_induction resolveArrayOf loader leaf dimension s with
  | case1 | case2 | case3 => exact ⟨.refl, rfl⟩
  | case4 s _ _ _ _ _ hclass => exact ⟨changes_resolveClass hclass, object_resolveClass hclass⟩
  | case5 s _ hobject _ _ _ hclass _ _ _ _ harray =>
    have hroot := object_resolveClass hclass
    obtain ⟨hchanges, hkept⟩ := changes_defineArray loader (hroot.trans hobject) harray
    exact ⟨(changes_resolveClass hclass).trans hchanges, hkept.trans hroot⟩
  | case6 s _ hobject _ _ _ _ _ harray => exact changes_defineArray loader hobject harray
  | case7 _ s _ _ _ _ _ _ _ helement ih => rwa [helement] at ih
  | case8 _ s _ _ hobject _ _ _ _ helement _ _ harray ih =>
    rw [helement] at ih
    obtain ⟨hchanges, hkept⟩ := changes_defineArray loader (ih.2.trans hobject) harray
    exact ⟨ih.1.trans hchanges, hkept.trans ih.2⟩

theorem changes_resolveArray (loader : Loader) (descriptor : String) (s : Session) :
    Changes loader s (s.resolveArray loader descriptor).2 := by
  unfold resolveArray
  split
  · exact .refl
  · split
    · exact .refl
    · split
      · exact .refl
      · split
        · exact (changes_resolveArrayOf ..).1
        · exact .refl

theorem changes_resolveArrays (loader : Loader) (descriptors : List String) (s : Session) :
    Changes loader s (s.resolveArrays loader descriptors).2 := by
  induction descriptors generalizing s with
  | nil => exact .refl
  | cons descriptor rest ih =>
    have hfirst := changes_resolveArray loader descriptor s
    unfold resolveArrays
    split
    · rename_i heq
      rwa [heq] at hfirst
    · rename_i heq
      rw [heq] at hfirst
      exact hfirst.trans (ih _)

theorem changes_bootstrap (loader : Loader) (s : Session) : Changes loader s (s.bootstrap loader).2 := by
  rcases hobject : s.resolveClass loader objectClass with ⟨object, s₁⟩
  have hchanges₁ : Changes loader s { s₁ with object := object.toOption } :=
    (changes_resolveClass hobject).trans <| Change.changes <|
      .designate (fun _ hc => .inr (find?_resolveClass hobject (by cbv) hc)) (fun _ => .inl) fun _ => .inl
  rcases harray : { s₁ with object := object.toOption }.resolveClass loader arrayClass with ⟨array, s₂⟩
  have hchanges₂ : Changes loader s { s₂ with array := array.toOption } :=
    (hchanges₁.trans (changes_resolveClass harray)).trans <| Change.changes <|
      .designate (fun _ => .inl) (fun _ hc => .inr (find?_resolveClass harray (by cbv) hc)) fun _ => .inl
  rcases hstring : { s₂ with array := array.toOption }.resolveClass loader stringClass with ⟨string, s₃⟩
  have hchanges₃ : Changes loader s { s₃ with string := string.toOption } :=
    (hchanges₂.trans (changes_resolveClass hstring)).trans <| Change.changes <|
      .designate (fun _ => .inl) (fun _ => .inl) fun _ hc => .inr (find?_resolveClass hstring (by cbv) hc)
  simp only [bootstrap, hobject, harray, hstring]
  cases object with
  | error => exact hchanges₁
  | ok =>
    cases array with
    | error => exact hchanges₂
    | ok =>
      cases string with
      | error => exact hchanges₃
      | ok => exact hchanges₃.trans (changes_resolveArrays ..)

/-! ### Sessions that calls lead to -/

/-- The sessions that calls lead to, in any order and whether they succeed or fail. -/
inductive Reachable (loader : Loader) : Session → Prop
  | start : Reachable loader {}
  | bootstrap {s : Session} (h : Reachable loader s) : Reachable loader (s.bootstrap loader).2
  | resolveClass {s : Session} (h : Reachable loader s) (name : String) :
      Reachable loader (s.resolveClass loader name).2
  | resolveArray {s : Session} (h : Reachable loader s) (descriptor : String) :
      Reachable loader (s.resolveArray loader descriptor).2
  | close {s : Session} (h : Reachable loader s) : Reachable loader s.close

theorem Changes.keep {P : Session → Prop} (hchange : ∀ {s s'}, Change loader s s' → P s → P s')
    (h : Changes loader s s') (hs : P s) : P s' := by
  induction h with
  | refl => exact hs
  | tail _ hstep ih => exact hchange hstep ih

theorem Reachable.induct {P : Session → Prop} (hstart : P {})
    (hchange : ∀ {s s'}, Change loader s s' → P s → P s') (hclose : ∀ {s}, P s → P s.close)
    (h : s.Reachable loader) : P s := by
  induction h with
  | start => exact hstart
  | bootstrap _ ih => exact (changes_bootstrap ..).keep hchange ih
  | resolveClass _ _ ih => exact (changes_resolveClass rfl).keep hchange ih
  | resolveArray _ _ ih => exact (changes_resolveArray ..).keep hchange ih
  | close _ ih => exact hclose ih

end JvmAot.Session
