import JvmAot.Proofs.Layout.Vtable
import JvmAot.Proofs.Session.Steps

/-! # Virtual dispatch

`ClassTable.Linked`: every class was built from its file on top of the vtable of its superclass. A slot then has
the same number in all subclasses, and holds the last method with its key in the most derived class that
declares one (`Linked.dispatch`). This need not be the method that a call names, as the key leaves out the
result type. -/

namespace JvmAot

section
variable {key : String} {methods : List MethodInfo} {m : MethodInfo}

theorem lastFilling_eq_some_iff : lastFilling key methods = some m ↔
    ∃ earlier later, methods = earlier ++ m :: later ∧ m.fills key ∧ ∀ m' ∈ later, ¬ m'.fills key := by
  rw [lastFilling, ← List.head?_reverse, ← List.filter_reverse, List.head?_filter, List.find?_eq_some_iff_append]
  constructor
  · rintro ⟨hm, later, earlier, heq, hlater⟩
    refine ⟨earlier.reverse, later.reverse, ?_, hm, fun m' hm' => ?_⟩
    · simpa using congrArg List.reverse heq
    · simpa using hlater m' (List.mem_reverse.1 hm')
  · rintro ⟨earlier, later, rfl, hm, hlater⟩
    exact ⟨hm, later.reverse, earlier.reverse, by simp, fun m' hm' => by
      simpa using hlater m' (List.mem_reverse.1 hm')⟩

theorem lastFilling_eq_none_iff : lastFilling key methods = none ↔ ∀ m ∈ methods, ¬ m.fills key := by
  simp [lastFilling]

end

namespace ClassTable

variable {loader : Loader} {t : ClassTable} {c d : ClassInfo} {m : MethodInfo} {name descriptor key : String}

/-- The method that a class dispatches a key to: of the most derived class that declares any, the last one. -/
def implementation? (t : ClassTable) (c : ClassInfo) (key : String) : Option MethodInfo :=
  (t.chain c).findSome? fun k => lastFilling key k.methods

theorem implementation?_eq_some_iff : t.implementation? c key = some m ↔
    ∃ nearer k farther earlier later, t.chain c = nearer ++ k :: farther ∧ k.methods = earlier ++ m :: later ∧
      m.fills key ∧ (∀ j ∈ nearer, ∀ m' ∈ j.methods, ¬ m'.fills key) ∧ ∀ m' ∈ later, ¬ m'.fills key := by
  simp only [implementation?, List.findSome?_eq_some_iff, lastFilling_eq_some_iff, lastFilling_eq_none_iff]
  constructor
  · rintro ⟨nearer, k, farther, hchain, ⟨earlier, later, hmethods, hm, hlater⟩, hnearer⟩
    exact ⟨nearer, k, farther, earlier, later, hchain, hmethods, hm, hnearer, hlater⟩
  · rintro ⟨nearer, k, farther, earlier, later, hchain, hmethods, hm, hnearer, hlater⟩
    exact ⟨nearer, k, farther, hchain, ⟨earlier, later, hmethods, hm, hlater⟩, hnearer⟩

/-- A method that is found is declared in a class of the chain. -/
theorem of_findMethod (h : t.findMethod c name descriptor = .ok m) :
    ∃ k ∈ t.chain c, m ∈ k.methods ∧ m.decl.name = name ∧ m.decl.descriptor = descriptor := by
  simp only [findMethod] at h
  split at h
  · rename_i heq
    cases h
    obtain ⟨k, hk, hfind⟩ := List.exists_of_findSome?_eq_some heq
    have hmatch := List.find?_some hfind
    simp only [Bool.and_eq_true, beq_iff_eq] at hmatch
    exact ⟨k, hk, List.mem_of_find?_eq_some hfind, hmatch⟩
  · cases h

/-- A class was built from its file and its superclass. -/
structure Builds (loader : Loader) (t : ClassTable) (c : ClassInfo) (file : ClassFile) (super : Option ClassInfo) :
    Prop where
  name : ClassName.slashed c.name = c.name ∧ ¬ ClassName.isArray c.name
  load : loader.load c.name = .ok file
  flags : c.flags = file.flags
  superName : c.superName = super.map (·.name)
  super_mem : ∀ k, super = some k → k ∈ t.latest
  methods : allocateMethods c.name 0 file.methods ((super.map (·.vtable)).getD {}) = .ok (c.methods, c.vtable)

/-- Every class was built from its file and its superclass, which was there before. -/
structure Linked (loader : Loader) (t : ClassTable) : Prop where
  ordered : Ordered t.latest
  builds : ∀ c ∈ t.latest, ∃ file super, t.Builds loader c file super

namespace Linked

theorem empty : Linked loader {} where
  ordered := trivial
  builds := by simp

theorem insert (h : t.Linked loader) (hfresh : t.find? c.name = none) {file : ClassFile} {super : Option ClassInfo}
    (hc : t.Builds loader c file super) : (t.insert c).Linked loader where
  ordered := by
    refine ⟨⟨find?_eq_none.1 hfresh, fun n hn => ?_⟩, h.ordered⟩
    rw [hc.superName] at hn
    obtain ⟨k, hk, rfl⟩ := Option.map_eq_some_iff.1 hn
    exact ⟨k, hc.super_mem k hk, rfl⟩
  builds := by
    have hmono {d : ClassInfo} {file : ClassFile} {super : Option ClassInfo} (hd : t.Builds loader d file super) :
        (t.insert c).Builds loader d file super :=
      { hd with super_mem := fun k hk => List.mem_cons_of_mem _ (hd.super_mem k hk) }
    refine List.forall_mem_cons.2 ⟨⟨file, super, hmono hc⟩, fun d hd => ?_⟩
    obtain ⟨file, super, hd⟩ := h.builds d hd
    exact ⟨file, super, hmono hd⟩

theorem chain_eq (h : t.Linked loader) {file : ClassFile} {super : Option ClassInfo}
    (hc : t.Builds loader c file super) : t.chain c = c :: super.elim [] t.chain := by
  cases super with
  | none => exact chain_of_superName_eq_none hc.superName
  | some k => exact h.ordered.chain_eq (hc.super_mem k rfl) hc.superName

/-- Induction over superclasses, with what each class was built from. -/
theorem induct {P : ClassInfo → Prop} (h : t.Linked loader)
    (hclass : ∀ {c file super}, c ∈ t.latest → t.Builds loader c file super → (∀ k, super = some k → P k) → P c)
    (hc : c ∈ t.latest) : P c := by
  refine h.ordered.induct_chain (fun c hc ih => ?_) hc
  obtain ⟨file, super, hbuilds⟩ := h.builds c hc
  refine hclass hc hbuilds ?_
  rintro k rfl
  exact ih k (hbuilds.super_mem k rfl) hbuilds.superName

/-- The methods of a class are those of its file. -/
theorem declared (h : t.Linked loader) (hc : c ∈ t.latest) (hm : m ∈ c.methods) :
    ∃ file, loader.load c.name = .ok file ∧ ∃ d ∈ file.methods, m.Declared c.name d := by
  obtain ⟨file, super, hbuilds⟩ := h.builds c hc
  have hall := declared_allocateMethods hbuilds.methods
  obtain ⟨k, hk, rfl⟩ := List.getElem_of_mem hm
  exact ⟨file, hbuilds.load, _, List.getElem_mem _, hall.get (hall.length_eq ▸ hk) hk⟩

/-- A vtable holds what the methods along the chain come to. -/
theorem find?_vtable (h : t.Linked loader) (hc : c ∈ t.latest) (key : String) :
    c.vtable.find? key =
      (t.implementation? c key).bind fun m => m.slot.map fun slot => (m.toDeclaredMethod, slot) := by
  refine h.induct (P := fun c => c.vtable.find? key = (t.implementation? c key).bind _)
    (fun {c file super} _ hbuilds ih => ?_) hc
  rw [find?_allocateMethods hbuilds.methods key, implementation?, h.chain_eq hbuilds, List.findSome?_cons]
  cases lastFilling key c.methods with
  | some m => rfl
  | none =>
    cases super with
    | none => rfl
    | some k => exact ih k rfl

/-- Subclasses keep the slot of a key. -/
theorem slot?_of_mem_chain (h : t.Linked loader) (hd : d ∈ t.latest) (hc : c ∈ t.chain d) {i : Nat}
    (hslot : c.vtable.slot? key = some i) : d.vtable.slot? key = some i := by
  refine h.induct (P := fun d => c ∈ t.chain d → d.vtable.slot? key = some i)
    (fun {d file super} _ hbuilds ih hc => ?_) hd hc
  rw [h.chain_eq hbuilds] at hc
  rcases List.mem_cons.1 hc with rfl | hc
  · exact hslot
  · cases super with
    | none => cases hc
    | some k => exact slot?_allocateMethods hbuilds.methods (ih k rfl hc)

/-- A slot that a class has holds the method that it dispatches the key to, which records the slot. -/
theorem implementation?_of_slot? (h : t.Linked loader) (hc : c ∈ t.latest) {i : Nat}
    (hslot : c.vtable.slot? key = some i) :
    ∃ m, t.implementation? c key = some m ∧ m.slot = some i ∧
      c.vtable.find? key = some (m.toDeclaredMethod, i) := by
  obtain ⟨entry, hfind⟩ := Vtable.exists_find? hslot
  have heq := h.find?_vtable hc key
  rw [hfind] at heq
  obtain ⟨m, hm, hentry⟩ := Option.bind_eq_some_iff.1 heq.symm
  obtain ⟨i', hi, heq⟩ := Option.map_eq_some_iff.1 hentry
  cases heq
  exact ⟨m, hm, hi, hfind⟩

/-- A virtual method that a class finds records its slot, which all subclasses have under the same number. -/
theorem dispatch (h : t.Linked loader) (hd : d ∈ t.latest) (hc : c ∈ t.chain d)
    (hm : t.findMethod c name descriptor = .ok m) (hvirtual : m.decl.isVirtual) :
    ∃ slot found, m.slot = some slot ∧ c.vtable.slot? (slotKey name descriptor) = some slot ∧
      t.implementation? d (slotKey name descriptor) = some found ∧ found.slot = some slot ∧
      d.vtable.find? (slotKey name descriptor) = some (found.toDeclaredMethod, slot) := by
  obtain ⟨k, hk, hmem, rfl, rfl⟩ := of_findMethod hm
  have hcmem := mem_of_mem_chain hd hc
  obtain ⟨file, super, hbuilds⟩ := h.builds k (mem_of_mem_chain hcmem hk)
  obtain ⟨slot, hslot, hown⟩ := slot_eq_of_mem_allocateMethods hbuilds.methods hmem hvirtual
  have hcslot := h.slot?_of_mem_chain hcmem hk hown
  obtain ⟨found, himpl, hrecorded, hfind⟩ := h.implementation?_of_slot? hd (h.slot?_of_mem_chain hd hc hcslot)
  exact ⟨slot, found, hslot, hcslot, himpl, hrecorded, hfind⟩

end Linked

end ClassTable

namespace Session

variable {loader : Loader} {s s' : Session} {c d : ClassInfo} {m : MethodInfo} {owner name descriptor : String}

theorem Change.linked (hchange : Change loader s s') (h : s.classes.Linked loader) : s'.classes.Linked loader := by
  cases hchange with
  | @define name file super hform hload hfresh hname hsuper =>
    rcases define_cases name file super s with
      ⟨_, heq⟩ | ⟨c, statics, heap, heq, rfl, hcsuper, hflags, -, hmethods, -⟩ <;> rw [heq]
    · exact h
    · exact h.insert hfresh ⟨hform, hload, hflags, hcsuper, hsuper, hmethods⟩
  | defineArray | designate => exact h

theorem Step.linked (hstep : Step loader s s') (h : s.classes.Linked loader) : s'.classes.Linked loader := by
  cases hstep with
  | change hchange => exact hchange.linked h
  | string => rwa [stringObject_frame]
  | label | fill => exact h

theorem Reached.linked (h : s.Reached loader) : s.classes.Linked loader := by
  induction h with
  | start => exact .empty
  | step _ hstep ih => exact hstep.linked ih
  | close _ ih | mark _ _ ih | emit _ _ ih => exact ih

/-- A class that is there is found, and nothing else happens. -/
theorem resolveClass_of_mem (h : s.classes.Linked loader) (hc : c ∈ s.classes.latest)
    (howner : ClassName.slashed owner = c.name) : s.resolveClass loader owner = (.ok c, s) := by
  obtain ⟨file, super, hbuilds⟩ := h.builds c hc
  have harray : ¬ ClassName.isArray owner := by
    rw [← ClassName.isArray_slashed, howner]
    exact hbuilds.name.2
  rw [resolveClass, resolveClassWithin, if_neg harray]
  simp only [howner, h.ordered.find?_name hc]

theorem answer_method (h : s.classes.Linked loader) (hc : c ∈ s.classes.latest)
    (howner : ClassName.slashed owner = c.name) (className : String) :
    s.answer loader className (.method owner name descriptor) =
      ((s.classes.findMethod c name descriptor).map (methodRef c), s) := by
  simp only [answer, answerFor, resolveClass_of_mem h hc howner]

theorem answer_virtual (h : s.classes.Linked loader) (hc : c ∈ s.classes.latest)
    (howner : ClassName.slashed owner = c.name) (hm : s.classes.findMethod c name descriptor = .ok m)
    (hvirtual : m.decl.isVirtual) {slot : Nat} (hslot : c.vtable.slot? (slotKey name descriptor) = some slot)
    (className : String) : s.answer loader className (.method owner name descriptor) =
      (.ok { className := m.owner, slot := some slot, isStatic := false }, s) := by
  obtain ⟨-, -, -, rfl, rfl⟩ := ClassTable.of_findMethod hm
  have hstatic : m.decl.flags.isStatic = false := by
    simp only [MethodDecl.isVirtual, Bool.and_eq_true, Bool.not_eq_true'] at hvirtual
    exact hvirtual.1
  rw [answer_method h hc howner, hm]
  simp [Except.map, methodRef, hstatic, hslot]

/-- An abstract class with the given methods. -/
def abstractClass (name : String) (superName : Option String) (methods : List (String × String)) : ClassFile where
  minor := 0
  major := 52
  flags := ⟨0x0401⟩
  name
  superName
  interfaces := []
  fields := []
  methods := methods.map fun (name, descriptor) => { flags := ⟨0x0401⟩, name, descriptor, code := none }

/-- Three classes, of which the second one has two methods that differ in their results only. -/
def animals : Loader where
  load
    | "Animal" => .ok (abstractClass "Animal" none [("speak", "()V"), ("age", "()I")])
    | "Dog" => .ok (abstractClass "Dog" (some "Animal") [("speak", "(I)V"), ("speak", "()V"), ("speak", "()I")])
    | "Puppy" => .ok (abstractClass "Puppy" (some "Dog") [("age", "()I")])
    | name => .error (Cause.classNotFound name : Failure)
  limit := 3

/-- The session after the most derived one is resolved. -/
def animalsResolved : Session :=
  (({} : Session).resolveClass animals "Puppy").2

theorem reached_animalsResolved : animalsResolved.Reached animals :=
  (Reachable.start.resolveClass "Puppy").reached

/-- One of the three classes. -/
def animal (name : String) : ClassInfo :=
  (animalsResolved.classes.find? name).getD default

/-- A method that one of them finds. -/
def animalMethod (owner name descriptor : String) : MethodInfo :=
  (animalsResolved.classes.findMethod (animal owner) name descriptor).toOption.getD default

/-- A call of a virtual method goes through one slot, for the class that it names and for all subclasses. What
it runs is declared in the most derived class that declares a method with the key, as the last such one. -/
theorem Reached.dispatch_follows_hierarchy (h : s.Reached loader) (hc : c ∈ s.classes.order)
    (hd : d ∈ s.classes.order) (hbelow : c ∈ s.classes.chain d) (howner : ClassName.slashed owner = c.name)
    (hm : s.classes.findMethod c name descriptor = .ok m) (hvirtual : m.decl.isVirtual) :
    ∃ slot found,
      (∀ className, s.answer loader className (.method owner name descriptor) =
        (.ok { className := m.owner, slot := some slot, isStatic := false }, s)) ∧
      1 ≤ slot ∧ m.slot = some slot ∧
      d.vtable.find? (slotKey name descriptor) = some (found.toDeclaredMethod, slot) ∧
      d.vtable.get? slot = some (some found.toDeclaredMethod) ∧
      s.classes.implementation? d (slotKey name descriptor) = some found := by
  have hlinked := h.linked
  rw [ClassTable.mem_order] at hc hd
  obtain ⟨slot, found, hslot, hcslot, himpl, -, hfind⟩ := hlinked.dispatch hd hbelow hm hvirtual
  exact ⟨slot, found, answer_virtual hlinked hc howner hm hvirtual hcslot, Vtable.one_le_of_slot? hcslot, hslot,
    hfind, (Vtable.find?_eq_some_iff.1 hfind).2, himpl⟩

theorem puppy_speaks_as_dog :
    animal "Animal" ∈ animalsResolved.classes.chain (animal "Puppy") ∧
      (animalMethod "Animal" "speak" "()V").owner = "Animal" ∧
      ∃ slot found,
        (∀ className, animalsResolved.answer animals className (.method "Animal" "speak" "()V") =
          (.ok { className := "Animal", slot := some slot, isStatic := false }, animalsResolved)) ∧
        (animal "Puppy").vtable.get? slot = some (some found) ∧
        slot = 1 ∧ (found.owner, found.index, found.decl.descriptor) = ("Dog", 2, "()I") := by
  have hbelow : animal "Animal" ∈ animalsResolved.classes.chain (animal "Puppy") := by decide +kernel
  have howner : (animalMethod "Animal" "speak" "()V").owner = "Animal" := by decide +kernel
  have hname : ClassName.slashed "Animal" = (animal "Animal").name := by decide +kernel
  have hfind : animalsResolved.classes.findMethod (animal "Animal") "speak" "()V" =
    .ok (animalMethod "Animal" "speak" "()V") := by decide +kernel
  obtain ⟨slot, found, hanswer, -, hslot, -, hget, himpl⟩ :=
    reached_animalsResolved.dispatch_follows_hierarchy (by decide +kernel) (by decide +kernel) hbelow hname hfind
      (by decide +kernel)
  obtain rfl : slot = 1 := Option.some.inj (hslot.symm.trans (by decide +kernel))
  obtain rfl : found = (animalsResolved.classes.implementation? (animal "Puppy") "speak()").getD default := by
    have hkey : slotKey "speak" "()V" = "speak()" := by decide +kernel
    rw [← hkey, himpl]
    rfl
  rw [howner] at hanswer
  exact ⟨hbelow, howner, 1, _, hanswer, hget, rfl, by decide +kernel⟩

/-! ### Results are not part of the key -/

/-- In the vtable of the class that a call names, the slot of the call holds the last method with the key, of the
most derived class that declares any. This is the method of the call itself only if neither a subclass of the
class that declares it, up to the one that the call names, nor that class further down has a method with the key. -/
theorem Reached.dispatch_on_exact_class (h : s.Reached loader) (hc : c ∈ s.classes.order)
    (howner : ClassName.slashed owner = c.name) (hm : s.classes.findMethod c name descriptor = .ok m)
    (hvirtual : m.decl.isVirtual) :
    ∃ slot found,
      (∀ className, s.answer loader className (.method owner name descriptor) =
        (.ok { className := m.owner, slot := some slot, isStatic := false }, s)) ∧
      c.vtable.get? slot = some (some found.toDeclaredMethod) ∧
      s.classes.implementation? c (slotKey name descriptor) = some found ∧
      (found.toDeclaredMethod = m.toDeclaredMethod ↔
        ∃ nearer k farther earlier later, s.classes.chain c = nearer ++ k :: farther ∧
          k.methods = earlier ++ m :: later ∧
          (∀ j ∈ nearer, ∀ m' ∈ j.methods, ¬ m'.fills (slotKey name descriptor)) ∧
          ∀ m' ∈ later, ¬ m'.fills (slotKey name descriptor)) := by
  have hlinked := h.linked
  rw [ClassTable.mem_order] at hc
  obtain ⟨slot, found, hslot, hcslot, himpl, hfound, hfind⟩ :=
    hlinked.dispatch hc (List.mem_cons_self ..) hm hvirtual
  have hfills : m.fills (slotKey name descriptor) := by
    obtain ⟨-, -, -, rfl, rfl⟩ := ClassTable.of_findMethod hm
    simp [MethodInfo.fills, MethodInfo.key, hvirtual]
  refine ⟨slot, found, answer_virtual hlinked hc howner hm hvirtual hcslot, (Vtable.find?_eq_some_iff.1 hfind).2,
    himpl, fun heq => ?_, ?_⟩
  · -- Both record the slot, so they are the same method.
    obtain rfl : found = m := by
      obtain ⟨found, _⟩ := found
      obtain ⟨m, _⟩ := m
      cases heq
      cases hslot
      cases hfound
      rfl
    obtain ⟨nearer, k, farther, earlier, later, hchain, hmethods, -, hnearer, hlater⟩ :=
      ClassTable.implementation?_eq_some_iff.1 himpl
    exact ⟨nearer, k, farther, earlier, later, hchain, hmethods, hnearer, hlater⟩
  · rintro ⟨nearer, k, farther, earlier, later, hchain, hmethods, hnearer, hlater⟩
    have hself := ClassTable.implementation?_eq_some_iff.2
      ⟨nearer, k, farther, earlier, later, hchain, hmethods, hfills, hnearer, hlater⟩
    rw [himpl] at hself
    cases hself
    rfl

/-- A class finds its method without a result, and the slot of the call holds the one with a result. -/
theorem dog_speaks_otherwise :
    animalsResolved.Reached animals ∧ animal "Dog" ∈ animalsResolved.classes.order ∧
      animalsResolved.classes.findMethod (animal "Dog") "speak" "()V" =
        .ok (animalMethod "Dog" "speak" "()V") ∧
      (animalMethod "Dog" "speak" "()V").decl.isVirtual ∧
      (animalMethod "Dog" "speak" "()V").decl.descriptor = "()V" ∧
      (animalsResolved.answer animals "Dog" (.method "Dog" "speak" "()V")).1 =
        .ok { className := "Dog", slot := some 1, isStatic := false } ∧
      ((animal "Dog").vtable.get? 1).map (Option.map (·.decl.descriptor)) = some (some "()I") :=
  ⟨reached_animalsResolved, by decide +kernel, by decide +kernel, by decide +kernel, by decide +kernel,
    by decide +kernel, by decide +kernel⟩

theorem dog_speaks_a_number :
    (animalMethod "Dog" "speak" "(I)V").decl.isVirtual ∧
      ∃ slot, (∀ className, animalsResolved.answer animals className (.method "Dog" "speak" "(I)V") =
          (.ok { className := "Dog", slot := some slot, isStatic := false }, animalsResolved)) ∧
        (animal "Dog").vtable.get? slot = some (some (animalMethod "Dog" "speak" "(I)V").toDeclaredMethod) := by
  have hvirtual : (animalMethod "Dog" "speak" "(I)V").decl.isVirtual := by decide +kernel
  have hname : ClassName.slashed "Dog" = (animal "Dog").name := by decide +kernel
  have hfind : animalsResolved.classes.findMethod (animal "Dog") "speak" "(I)V" =
    .ok (animalMethod "Dog" "speak" "(I)V") := by decide +kernel
  obtain ⟨slot, found, hanswer, hget, -, hsame⟩ :=
    reached_animalsResolved.dispatch_on_exact_class (by decide +kernel) hname hfind hvirtual
  have howner : (animalMethod "Dog" "speak" "(I)V").owner = "Dog" := by decide +kernel
  have hself : found.toDeclaredMethod = (animalMethod "Dog" "speak" "(I)V").toDeclaredMethod :=
    hsame.2 ⟨[], animal "Dog", [animal "Animal"], [], (animal "Dog").methods.tail, by decide +kernel,
      by decide +kernel, by simp, by decide +kernel⟩
  rw [howner] at hanswer
  exact ⟨hvirtual, slot, hanswer, hself ▸ hget⟩

end Session

end JvmAot
