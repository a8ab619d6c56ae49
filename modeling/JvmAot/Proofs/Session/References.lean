import JvmAot.Proofs.Lowering.Symbols
import JvmAot.Proofs.Session.Contents

/-! # References of a program

`Known`: what code may refer to in a session, which only grows. The code of a method refers to what is known when it
is written and to its own labels (`mentions_methodListing`). At the end of a compilation all that is known is
defined, apart from what the runtime provides. -/

namespace JvmAot

/-- All branches lead to instructions. -/
def Code.BranchesInside (code : Code) : Prop :=
  ∀ i ∈ code.instructions, ∀ target ∈ i.targets, ∃ j ∈ code.instructions, j.offset = target

instance (code : Code) : Decidable code.BranchesInside :=
  inferInstanceAs
    (Decidable (∀ i ∈ code.instructions, ∀ target ∈ i.targets, ∃ j ∈ code.instructions, j.offset = target))

theorem mentions_map_instr (code : List Instr) : mentions (code.map Line.instr) = symbolsOf code := by
  induction code with
  | nil => rfl
  | cons i rest ih => rw [List.map_cons, mentions_cons, ih, symbolsOf_cons]; rfl

theorem mentions_map_label (names : List String) : mentions (names.map Line.label) = [] := by
  simp [mentions, Line.mentions]

namespace Session

variable {loader : Loader} {s s' : Session} {c : ClassInfo} {x className : String}

/-- What the text of a program may refer to. -/
inductive Known (s : Session) : String → Prop
  | staticFields : Known s Symbol.staticFields
  | allocateMemory : Known s Symbol.allocateMemory
  | label {n : Nat} (h : n < s.labels.size) : Known s (LabelTable.label n)
  | method {x : String} (h : s.classes.Declares x) : Known s x
  | vtable {c : ClassInfo} (hc : c ∈ s.classes.latest) : Known s (Symbol.ofVtable c.name)

theorem Known.steps (h : s.Known x) (hsteps : Steps loader s s') : s'.Known x := by
  cases h with
  | staticFields => exact .staticFields
  | allocateMemory => exact .allocateMemory
  | label h => exact .label (Nat.lt_of_lt_of_le h hsteps.extends_labels.size_le)
  | method h =>
    obtain ⟨c, hc, hx⟩ := h
    exact .method ⟨c, hsteps.mem_classes hc, hx⟩
  | vtable hc => exact .vtable (hsteps.mem_classes hc)

theorem Known.texts {classes : List ClassInfo} {lines : List Line} (h : s.Known x)
    (htexts : Texts loader classes s s' lines) : s'.Known x := by
  refine htexts.keep (P := fun s => s.Known x) (fun hstep h => h.steps hstep.steps) (fun {s} names h => ?_) h
  cases h with
  | staticFields => exact .staticFields
  | allocateMemory => exact .allocateMemory
  | label hn => exact .label hn
  | method hx => exact .method hx
  | vtable hc => exact .vtable hc

/-! ### Code -/

theorem known_label {v : Value} (hnull : v ≠ .null) (hsymbol : ∀ x, v ≠ .symbol x) :
    (s.label v).2.Known (s.label v).1 := by
  obtain ⟨n, hn, hlabel⟩ := (s.labels.get_spec v).2.exists_label hnull hsymbol
  exact hlabel ▸ .label hn

theorem answerFor_of_ok {α : Type} {owner : String} {answer : ClassTable → ClassInfo → Except Failure α} {a : α}
    (h : s.answerFor loader owner answer = (.ok a, s')) :
    ∃ c, s'.classes.find? (ClassName.slashed owner) = some c ∧ answer s'.classes c = .ok a := by
  unfold answerFor at h
  split at h
  · cases h
  · rename_i c s₁ hresolve
    obtain ⟨ha, rfl⟩ := Prod.mk.inj h
    exact ⟨c, find?_of_resolveClass hresolve, ha⟩

/-- An answer names what is known once it is given. -/
theorem known_answer {q : Question} {a : q.Answer} (h : s.answer loader className q = (.ok a, s'))
    (hx : x ∈ q.names a) : s'.Known x := by
  cases q with
  | field owner name =>
    rw [List.mem_singleton.1 hx]
    exact .staticFields
  | method owner name descriptor =>
    rw [answer] at h
    obtain ⟨c, hfind, hmethod⟩ := answerFor_of_ok h
    cases hm : s'.classes.findMethod c name descriptor with
    | error => rw [hm] at hmethod; cases hmethod
    | ok m =>
      rw [hm] at hmethod
      cases hmethod
      obtain ⟨k, hk, hmem, rfl, rfl⟩ := ClassTable.of_findMethod hm
      rw [List.mem_singleton.1 hx]
      exact .method ⟨k, ClassTable.mem_of_mem_chain (ClassTable.mem_of_find? hfind) hk, m, hmem, rfl⟩
  | instanceSize owner =>
    rw [answer] at h
    obtain ⟨c, hfind, -⟩ := answerFor_of_ok h
    have hvtable : Symbol.ofVtable owner = Symbol.ofVtable c.name := by
      rw [ClassTable.name_of_find? hfind, Symbol.ofVtable, Symbol.ofVtable, Symbol.ofClass, Symbol.ofClass,
        ClassName.slashed_slashed]
    rcases List.mem_cons.1 hx with rfl | hx
    · exact hvtable ▸ .vtable (ClassTable.mem_of_find? hfind)
    · exact List.mem_singleton.1 hx ▸ .allocateMemory
  | arrayVtable descriptor =>
    simp only [answer] at h
    split at h
    · cases h
    · rename_i metadata s₁ _
      cases h
      rcases List.mem_cons.1 hx with rfl | hx
      · refine known_label ?_ ?_ <;> unfold Heap.vtable <;> split <;> simp
      · exact List.mem_singleton.1 hx ▸ .allocateMemory
  | stringLabel slot units =>
    simp only [answer] at h
    split at h
    · cases h
    · cases h
      rw [List.mem_singleton.1 hx]
      exact known_label (by simp) (by simp)

theorem known_run {lowering : Lowering} {own : String → Prop} {code : List Instr} (hrefers : lowering.Refers own)
    (hrun : lowering.run (context loader className) s = ({ code }, s')) (hx : x ∈ symbolsOf code) :
    s'.Known x ∨ own x := by
  cases lowering with
  | done result =>
    cases hrun
    exact .inr (hrefers x hx)
  | ask q next =>
    rw [Lowering.run] at hrun
    split at hrun
    · rename_i a s₁ hanswer
      obtain ⟨hcode, rfl⟩ := Prod.mk.inj hrun
      refine .inl (known_answer hanswer (hrefers a x ?_))
      rwa [hcode]
    · cases hrun

theorem mentions_listing {scope : Scope} {instructions : List Instruction}
    (hf : (scope.listing (context loader className) instructions s).failure = none)
    (hx : x ∈ mentions (scope.listing (context loader className) instructions s).lines) :
    (scope.listing (context loader className) instructions s).state.Known x ∨ ∃ i ∈ instructions, scope.Owns i x := by
  induction instructions generalizing s with
  | nil => cases hx
  | cons i rest ih =>
    obtain ⟨code, s₁, hrun, hrest, hlines⟩ := Scope.listing_cons hf
    have hstate : (scope.listing (context loader className) (i :: rest) s).state =
        (scope.listing (context loader className) rest s₁).state := by
      rw [Scope.listing, hrun]
      rfl
    rw [hlines, mentions_append, mentions_append, Scope.labelLines, mentions_map_label, mentions_map_instr,
      List.nil_append, List.mem_append] at hx
    rw [hstate]
    rcases hx with hx | hx
    · rcases known_run (scope.refers_lower i) hrun hx with hknown | hown
      · exact .inl (hknown.steps (steps_listing rest s₁))
      · exact .inr ⟨i, List.mem_cons_self .., hown⟩
    · rcases ih hrest hx with hknown | ⟨j, hj, hown⟩
      · exact .inl hknown
      · exact .inr ⟨j, List.mem_cons_of_mem _ hj, hown⟩

/-- The labels that the code of a method refers to are among those that it defines. -/
theorem owns_mem_ownLabels {d : MethodDecl} {header : Int} {code : Code} {i : Instruction}
    (hbody : d.body? = some code) (hbranches : code.BranchesInside) (hi : i ∈ code.instructions)
    (hx : (d.bodyScope header className code).Owns i x) : x ∈ d.ownLabels className := by
  rw [MethodDecl.ownLabels, hbody]
  rcases hx with rfl | ⟨htarget, hlabel⟩
  · exact List.mem_cons_of_mem _ (List.mem_append_right _ (List.mem_singleton_self _))
  · obtain ⟨j, hj, hoffset⟩ := hbranches i hi _ htarget
    exact List.mem_cons_of_mem _ (List.mem_append_left _
      (List.mem_filterMap.2 ⟨i.target, List.mem_map.2 ⟨j, hj, hoffset⟩, hlabel⟩))

theorem state_methodListing {σ : Type} {context : Context σ} {state : σ} {d : MethodDecl} {header : Int} {code : Code}
    {type : MethodType} (hbody : d.body? = some code) (htype : MethodType.parse d.descriptor = .ok type)
    (hf : (d.listing context header className state).failure = none) :
    (d.listing context header className state).state =
      ((d.bodyScope header className code).listing context code.instructions state).state := by
  simp only [MethodDecl.listing, hbody, htype] at hf ⊢
  split at hf
  · cases hf
  rw [if_neg ‹_›, Listing.within, MethodDecl.bodyListing]
  have hf := Option.map_eq_none_iff.1 hf
  rw [MethodDecl.bodyListing] at hf
  split at hf
  · cases hf
  · rw [if_neg ‹_›, Listing.state_append]
    rfl

theorem mentions_methodListing {d : MethodDecl} {header : Int}
    (hf : (d.listing (context loader className) header className s).failure = none)
    (hbranches : ∀ code ∈ d.body?, code.BranchesInside)
    (hx : x ∈ mentions (d.listing (context loader className) header className s).lines) :
    (d.listing (context loader className) header className s).state.Known x ∨ x ∈ d.ownLabels className := by
  cases hbody : d.body? with
  | none => simp [MethodDecl.listing, hbody] at hx
  | some code =>
    cases htype : MethodType.parse d.descriptor with
    | error => simp [MethodDecl.listing, hbody, htype] at hf
    | ok type =>
      obtain ⟨hfew, hfail, hlines⟩ := MethodDecl.lines_listing hbody htype hf
      have hx : x ∈ mentions ((d.bodyScope header className code).listing (context loader className)
          code.instructions s).lines := by
        have hleave : symbolsOf (Template.leave code.maxLocals) = [] := rfl
        rw [hlines, Scope.linesBefore, List.take_length] at hx
        simpa [mentions_map_instr, Line.mentions, symbolsOf_enter, hleave] using hx
      rw [state_methodListing hbody htype hf]
      rcases mentions_listing hfail hx with hknown | ⟨i, hi, hown⟩
      · exact .inl hknown
      · exact .inr (owns_mem_ownLabels hbody (hbranches code hbody) hi hown)

theorem mentions_methodsListing {header : Nat} {methods : List MethodInfo}
    (hf : (s.methodsListing loader header className methods).failure = none)
    (hbranches : ∀ m ∈ methods, ∀ code ∈ m.decl.body?, code.BranchesInside)
    (hx : x ∈ mentions (s.methodsListing loader header className methods).lines) :
    (s.methodsListing loader header className methods).state.Known x ∨
      x ∈ methods.flatMap fun m => m.decl.ownLabels className := by
  induction methods generalizing s with
  | nil => cases hx
  | cons m rest ih =>
    obtain ⟨hfirst, hrest, heq⟩ := Listing.andThen_of_success hf
    obtain ⟨hbranch, hbranches⟩ := List.forall_mem_cons.1 hbranches
    rw [methodsListing, heq] at hx ⊢
    rw [Listing.prepend, mentions_append, List.mem_append] at hx
    rw [List.flatMap_cons, List.mem_append]
    rcases hx with hx | hx
    · rcases mentions_methodListing hfirst hbranch hx with hknown | hown
      · exact .inl (hknown.steps (steps_methodsListing ..))
      · exact .inr (.inl hown)
    · exact (ih hrest hbranches hx).imp_right .inr

/-! ### The program -/

/-- The texts of classes refer to what is known in the end and to what they define. -/
theorem Texts.mentions_known {classes : List ClassInfo} {lines : List Line} (h : Texts loader classes s s' lines)
    (hbranches : ∀ c ∈ classes, ∀ m ∈ c.methods, ∀ code ∈ m.decl.body?, code.BranchesInside)
    (hx : x ∈ mentions lines) : s'.Known x ∨ x ∈ definitions lines := by
  induction h with
  | nil => cases hx
  | mark _ _ ih => exact ih hbranches hx
  | @text s s' c classes lines hc hf h ih =>
    obtain ⟨hbranch, hbranches⟩ := List.forall_mem_cons.1 hbranches
    rw [mentions_append, List.mem_append] at hx
    rw [definitions_append, definitions_classListing hf, List.mem_append]
    rcases hx with hx | hx
    · obtain ⟨header, -, hmethods, heq⟩ := classListing_of_success hf
      have hx : x ∈ mentions (s.methodsListing loader header c.name c.methods).lines := by
        rw [heq] at hx
        simpa [Line.mentions] using hx
      rcases mentions_methodsListing hmethods hbranch hx with hknown | hown
      · have hsteps : Steps loader s _ := steps_methodsListing header c.name c.methods s
        have hfill : Step loader _ _ := .fill (hsteps.mem_classes hc)
        rw [heq] at h
        exact .inl ((hknown.steps hfill.steps).texts h)
      · exact .inr (.inl hown)
    · exact (ih hbranches hx).imp_right .inr

/-- Linked classes and their objects, in one invariant. -/
theorem populated_of_steps (h : Steps loader {} s) : s.classes.Linked loader ∧ s.Populated :=
  h.keep (P := fun s => s.classes.Linked loader ∧ s.Populated)
    (fun hstep h => ⟨hstep.linked h.1, h.2.step hstep h.1⟩) ⟨.empty, .start⟩

theorem Texts.populated {classes : List ClassInfo} {lines : List Line} (htexts : Texts loader classes s s' lines)
    (h : s.classes.Linked loader ∧ s.Populated) : s'.classes.Linked loader ∧ s'.Populated :=
  htexts.keep (P := fun s => s.classes.Linked loader ∧ s.Populated)
    (fun hstep h => ⟨hstep.linked h.1, h.2.step hstep h.1⟩)
    (fun _ h => ⟨h.1, h.2.holds, h.2.tabled, h.2.vtables, h.2.root⟩) h

/-- The symbol of a method stands in the text of its class, if the method has a body. -/
theorem symbol_mem_ownLabels {m : MethodInfo} (hlinked : s.classes.Linked loader) (hc : c ∈ s.classes.latest)
    (hm : m ∈ c.methods) : m.symbol ∈ c.ownLabels ∨
      m.decl.flags.isNative ∨ m.decl.code = none ∨ m.decl.isInitializer := by
  cases hbody : m.decl.body? with
  | none =>
    unfold MethodDecl.body? at hbody
    split at hbody
    · rename_i hnone
      rw [Bool.or_eq_true] at hnone
      exact .inr (hnone.imp_right .inr)
    · exact .inr (.inr (.inl hbody))
  | some code =>
    refine .inl (List.mem_flatMap.2 ⟨m, hm, ?_⟩)
    obtain ⟨-, -, d, -, hdecl⟩ := hlinked.declared hc hm
    rw [MethodDecl.ownLabels, hbody, DeclaredMethod.symbol, hdecl.owner]
    exact List.mem_cons_self ..

/-- Each symbol that a compiled program refers to is defined in it, or is that of the allocation routine, of a method
that has no body to compile, or of the vtable of an interface. -/
theorem references_accounted_for (prologue : ByteArray) (entry : String)
    (hf : (({} : Session).compile loader prologue entry).failure = none)
    (hbranches : ∀ c ∈ (({} : Session).compile loader prologue entry).state.classes.order,
      ∀ m ∈ c.methods, ∀ code ∈ m.decl.body?, code.BranchesInside) :
    ∀ x ∈ mentions (({} : Session).compile loader prologue entry).lines,
      x ∈ definitions (({} : Session).compile loader prologue entry).lines ∨ x = Symbol.allocateMemory ∨
      (∃ c ∈ (({} : Session).compile loader prologue entry).state.classes.order, ∃ m ∈ c.methods, x = m.symbol ∧
        (m.decl.flags.isNative ∨ m.decl.code = none ∨ m.decl.isInitializer)) ∨
      ∃ c ∈ (({} : Session).compile loader prologue entry).state.classes.order,
        c.isInterface ∧ x = Symbol.ofVtable c.name := by
  obtain ⟨classes, s, s', lines, hsteps, htexts, hclasses, -, hdata, heq⟩ := compile_of_success hf
  obtain ⟨hlinked, hpopulated⟩ := htexts.populated (populated_of_steps hsteps)
  have hclosed : s'.close.Populated := ⟨hpopulated.holds, hpopulated.tabled, hpopulated.vtables, hpopulated.root⟩
  obtain ⟨heap, labels, hstate, hextends, hdefs, hrefs⟩ := dataLines_of_success hclosed hdata
  rw [heq] at hbranches ⊢
  simp only [Listing.prepend, hstate] at hbranches ⊢
  have horder {c : ClassInfo} : c ∈ s'.close.classes.order ↔ c ∈ s'.classes.latest := ClassTable.mem_order
  have hdefined : definitions (.raw prologue :: lines ++ (s'.close.dataLines loader).lines) = definitions lines ++
      (Symbol.staticFields :: (s'.classes.order.filter fun c => !c.isInterface).map (fun c => Symbol.ofVtable c.name) ++
        (List.range labels.size).map LabelTable.label ++ [Symbol.dynamicHeap]) := by
    rw [definitions_append, definitions_cons, hdefs]
    rfl
  intro x hx
  have hx : s'.Known x ∨ x ∈ definitions lines ∨ ∃ n < labels.size, x = LabelTable.label n := by
    rw [mentions_append, mentions_cons, List.mem_append] at hx
    rcases hx with hx | hx
    · refine (htexts.mentions_known (fun c hc => ?_) hx).imp_right .inl
      exact hbranches c (horder.2 ((hclasses c).2 hc))
    · exact (hrefs x hx).imp .method .inr
  have hlabel {n : Nat} (hn : n < labels.size) :
      LabelTable.label n ∈ (List.range labels.size).map LabelTable.label :=
    List.mem_map_of_mem (List.mem_range.2 hn)
  rw [hdefined]
  rcases hx with hknown | hown | ⟨n, hn, rfl⟩
  · cases hknown with
    | staticFields => exact .inl (by simp)
    | allocateMemory => exact .inr (.inl rfl)
    | label hn => exact .inl (by simp [hlabel (Nat.lt_of_lt_of_le hn hextends.size_le)])
    | method hx =>
      obtain ⟨c, hc, m, hm, rfl⟩ := hx
      rcases symbol_mem_ownLabels hlinked hc hm with hown | hnone
      · refine .inl (List.mem_append_left _ ?_)
        rw [htexts.definitions_eq]
        exact List.mem_flatMap.2 ⟨c, (hclasses c).1 hc, hown⟩
      · exact .inr (.inr (.inl ⟨c, horder.2 hc, m, hm, rfl, hnone⟩))
    | @vtable c hc =>
      cases hi : c.isInterface with
      | true => exact .inr (.inr (.inr ⟨c, horder.2 hc, hi, rfl⟩))
      | false =>
        refine .inl (List.mem_append_right _ (List.mem_append_left _ (List.mem_append_left _
          (List.mem_cons_of_mem _ (List.mem_map.2 ⟨c, List.mem_filter.2 ⟨horder.2 hc, ?_⟩, rfl⟩)))))
        rw [hi]
        rfl
  · exact .inl (List.mem_append_left _ hown)
  · exact .inl (by simp [hlabel hn])

/-- A class file with the given members. -/
def classFile (flags : Nat) (name : String) (superName : Option String) (fields : List FieldDecl)
    (methods : List MethodDecl) : ClassFile where
  minor := 0
  major := 52
  flags := ⟨flags⟩
  name
  superName
  interfaces := []
  fields
  methods

/-- A method that makes an object and a string, unless a static field is zero. -/
def greet : MethodDecl where
  flags := ⟨0x0009⟩
  name := "greet"
  descriptor := "()V"
  code := some
    { maxStack := 2
      maxLocals := 0
      instructions :=
        [{ offset := 1, opcode := .getstatic, constant := some ⟨1, .member 9 "Main" "count" "I"⟩ },
          { offset := 4, opcode := .ifZero .eq, target := 24 },
          { offset := 7, opcode := .new, constant := some ⟨2, .classRef "Speaker"⟩ },
          { offset := 10, opcode := .pop },
          { offset := 11, opcode := .new, constant := some ⟨3, .classRef "Main"⟩ },
          { offset := 14, opcode := .dup },
          { offset := 15, opcode := .invokespecial,
            constant := some ⟨4, .member 10 "java/lang/Object" "<init>" "()V"⟩ },
          { offset := 18, opcode := .invokevirtual, constant := some ⟨5, .member 10 "Main" "hashCode" "()I"⟩ },
          { offset := 21, opcode := .pop },
          { offset := 22, opcode := .ldc, constant := some ⟨6, .string [104, 105]⟩ },
          { offset := 23, opcode := .pop },
          { offset := 24, opcode := .returnVoid }]
      handlers := [] }

/-- A program with an interface, a native method and an initializer. -/
def greeting : Loader where
  load
    | "java/lang/Object" => .ok (classFile 0x0001 "java/lang/Object" none [⟨⟨0⟩, "vtable", "I"⟩]
        [⟨⟨0x0001⟩, "<init>", "()V", some ⟨0, 1, [{ offset := 1, opcode := .returnVoid }], []⟩⟩,
          ⟨⟨0x0101⟩, "hashCode", "()I", none⟩])
    | "java/lang/Array" =>
      .ok (classFile 0x0001 "java/lang/Array" (some "java/lang/Object") [⟨⟨0⟩, "length", "I"⟩] [])
    | "java/lang/String" =>
      .ok (classFile 0x0001 "java/lang/String" (some "java/lang/Object") [⟨⟨0⟩, "value", "[C"⟩] [])
    | "Speaker" => .ok (classFile 0x0601 "Speaker" (some "java/lang/Object") [] [⟨⟨0x0401⟩, "speak", "()V", none⟩])
    | "Main" => .ok (classFile 0x0001 "Main" (some "java/lang/Object") [⟨⟨0x0008⟩, "count", "I"⟩] [greet])
    | name => .error (Cause.classNotFound name : Failure)
  limit := 5

/-- The compiled program. -/
def greetingText : Listing Session :=
  ({} : Session).compile greeting ByteArray.empty "Main"

theorem greeting_accounted_for :
    greetingText.failure = none ∧
      (∀ c ∈ greetingText.state.classes.order, ∀ m ∈ c.methods, ∀ code ∈ m.decl.body?, code.BranchesInside) ∧
      ((mentions greetingText.lines).filter (· ∉ definitions greetingText.lines)).eraseDups =
        ["Speaker_vtable", "allocateMemory", "java_lang_Object_hashCode__I"] ∧
      ∀ x ∈ mentions greetingText.lines,
        x ∈ definitions greetingText.lines ∨ x = Symbol.allocateMemory ∨
        (∃ c ∈ greetingText.state.classes.order, ∃ m ∈ c.methods, x = m.symbol ∧
          (m.decl.flags.isNative ∨ m.decl.code = none ∨ m.decl.isInitializer)) ∨
        ∃ c ∈ greetingText.state.classes.order, c.isInterface ∧ x = Symbol.ofVtable c.name := by
  obtain ⟨haccepted, hbranches, hothers⟩ : greetingText.failure = none ∧
      (∀ c ∈ greetingText.state.classes.order, ∀ m ∈ c.methods, ∀ code ∈ m.decl.body?, code.BranchesInside) ∧
      ((mentions greetingText.lines).filter (· ∉ definitions greetingText.lines)).eraseDups =
        ["Speaker_vtable", "allocateMemory", "java_lang_Object_hashCode__I"] := by decide +kernel
  exact ⟨haccepted, hbranches, hothers, references_accounted_for ByteArray.empty "Main" haccepted hbranches⟩

end Session

end JvmAot
