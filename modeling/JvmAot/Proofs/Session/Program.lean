import JvmAot.Proofs.Session.Bodies
import JvmAot.Proofs.Session.Data

/-! # Accepted programs

The text of an accepted program is made of the texts of its classes, each one once and after that of its superclass,
and of its data (`compile_texts`). Its classes are those that it needs, and their vtables are filled before the data is
written. -/

namespace JvmAot

/-! ### Banners -/

/-- The text of a banner. -/
def Line.banner? : Line → Option String
  | banner text => some text
  | _ => none

/-- The banners among some lines. -/
def banners (lines : List Line) : List String :=
  lines.filterMap Line.banner?

@[simp] theorem banners_nil : banners [] = [] := rfl

@[simp] theorem banners_append (lines more : List Line) : banners (lines ++ more) = banners lines ++ banners more :=
  List.filterMap_append

@[simp] theorem banners_cons (line : Line) (lines : List Line) :
    banners (line :: lines) = line.banner?.toList ++ banners lines := by
  cases h : line.banner? <;> simp [banners, h]

theorem banners_eq_nil {lines : List Line} (h : ∀ line ∈ lines, line.banner? = none) : banners lines = [] :=
  List.filterMap_eq_nil_iff.2 h

theorem banners_map_instr (code : List Instr) : banners (code.map Line.instr) = [] := by
  refine banners_eq_nil fun line hline => ?_
  obtain ⟨i, -, rfl⟩ := List.mem_map.1 hline
  rfl

theorem Scope.banners_listing {σ : Type} (scope : Scope) (context : Context σ) (instructions : List Instruction)
    (state : σ) : banners (scope.listing context instructions state).lines = [] := by
  induction instructions generalizing state with
  | nil => rfl
  | cons i rest ih =>
    rcases hrun : (scope.lower i).run context state with ⟨⟨code, failure⟩, state'⟩
    have hlabels : banners (scope.labelLines i.offset) = [] := by
      refine banners_eq_nil fun line hline => ?_
      obtain ⟨name, -, rfl⟩ := List.mem_map.1 hline
      rfl
    rw [Scope.listing, hrun]
    cases failure with
    | some failure => simp [hlabels, banners_map_instr]
    | none => simp [Listing.prepend, hlabels, banners_map_instr, ih]

/-- No banner stands in the text of a method. -/
theorem MethodDecl.banners_listing {σ : Type} (context : Context σ) (header : Int) (className : String) (d : MethodDecl)
    (state : σ) : banners (d.listing context header className state).lines = [] := by
  unfold MethodDecl.listing
  split
  · rfl
  split
  · rfl
  split
  · rfl
  rw [Listing.within, bodyListing]
  split
  · rfl
  · rw [Listing.append]
    split <;> simp [Listing.prepend, Scope.banners_listing, banners_map_instr, Line.banner?]

/-- Two names in slash form that read the same with dots are the same. -/
theorem ClassName.dotted_inj {a b : String} (ha : slashed a = a) (hb : slashed b = b) (h : dotted a = dotted b) :
    a = b := by
  have hback (name : String) : slashed (dotted name) = slashed name := by
    simp only [slashed, dotted, String.map_map]
    congr 1
    funext c
    by_cases hslash : c = '/' <;> simp [hslash]
  rw [← ha, ← hb, ← hback a, ← hback b, h]

namespace Session

variable {loader : Loader} {entry : String} {s s' : Session} {c : ClassInfo} {classes : List ClassInfo}
  {lines : List Line}

/-! ### The texts of classes -/

/-- The banner over the text of a class. -/
def banner (c : ClassInfo) : String :=
  "class " ++ ClassName.dotted c.name

/-- The body of a method of the class `c`, written with the given array header. -/
def IsBody (loader : Loader) (header : Nat) (c : ClassInfo) (m : MethodInfo) (body : List Line) : Prop :=
  ∃ s : Session, s.Reached loader ∧ (m.decl.listing (context loader c.name) header c.name s).failure = none ∧
    body = (m.decl.listing (context loader c.name) header c.name s).lines

/-- The text of a class: its banner, and one body for each of its methods. -/
def IsText (loader : Loader) (header : Nat) (c : ClassInfo) (text : List Line) : Prop :=
  ∃ bodies, List.Forall₂ (IsBody loader header c) c.methods bodies ∧
    text = .banner (banner c) :: bodies.flatten ++ [.blank]

theorem bodies_methodsListing {header : Nat} {methods : List MethodInfo} (hs : s.Reached loader)
    (hf : (s.methodsListing loader header c.name methods).failure = none) :
    ∃ bodies, List.Forall₂ (IsBody loader header c) methods bodies ∧
      (s.methodsListing loader header c.name methods).lines = bodies.flatten := by
  induction methods generalizing s with
  | nil => exact ⟨[], .nil, rfl⟩
  | cons m rest ih =>
    obtain ⟨hfirst, hrest, heq⟩ := Listing.andThen_of_success hf
    obtain ⟨bodies, hbodies, hlines⟩ := ih (hs.steps (steps_methodListing m.decl header c.name s)) hrest
    refine ⟨_ :: bodies, .cons ⟨s, hs, hfirst, rfl⟩ hbodies, ?_⟩
    rw [methodsListing, heq, Listing.prepend, hlines, List.flatten_cons]

theorem isText_classListing {header : Nat} (hs : s.Reached loader) (hheader : s.arrayHeaderSize = .ok header)
    (hf : (s.classListing loader c).failure = none) : IsText loader header c (s.classListing loader c).lines := by
  obtain ⟨header', hheader', hmethods, heq⟩ := classListing_of_success hf
  obtain rfl : header = header' := Except.ok.inj (hheader.symm.trans hheader')
  obtain ⟨bodies, hbodies, hlines⟩ := bodies_methodsListing hs hmethods
  refine ⟨bodies, hbodies, ?_⟩
  rw [heq, hlines]
  rfl

theorem banners_bodies {header : Nat} {methods : List MethodInfo} {bodies : List (List Line)}
    (h : List.Forall₂ (IsBody loader header c) methods bodies) : banners bodies.flatten = [] := by
  induction h with
  | nil => rfl
  | cons hbody _ ih =>
    obtain ⟨s, -, -, rfl⟩ := hbody
    rw [List.flatten_cons, banners_append, MethodDecl.banners_listing, ih, List.append_nil]

theorem IsText.banners_eq {header : Nat} {text : List Line} (h : IsText loader header c text) :
    banners text = [banner c] := by
  obtain ⟨bodies, hbodies, rfl⟩ := h
  simp [banners_bodies hbodies, Line.banner?]

theorem Texts.isText {a : ClassInfo} (h : Texts loader classes s s' lines) (hs : s.Reached loader)
    (hgathered : s.Gathered loader entry (some a)) :
    ∃ texts, List.Forall₂ (IsText loader a.layout.size) classes texts ∧ lines = texts.flatten := by
  induction h with
  | nil => exact ⟨[], .nil, rfl⟩
  | mark names _ ih => exact ih (hs.mark names) ⟨hgathered.needed, hgathered.leaves, hgathered.array_eq⟩
  | @text s s' c classes lines hc hf h ih =>
    have hheader : s.arrayHeaderSize = .ok a.layout.size := by rw [arrayHeaderSize, hgathered.array_eq]
    obtain ⟨texts, htexts, hlines⟩ := ih (hs.steps (steps_classListing hc))
      (gathered_classListing hs.linked hc hgathered hf).1
    exact ⟨_ :: texts, .cons (isText_classListing hs hheader hf) htexts, by rw [hlines, List.flatten_cons]⟩

theorem banners_texts {header : Nat} {texts : List (List Line)} (h : List.Forall₂ (IsText loader header) classes texts) :
    banners texts.flatten = classes.map banner := by
  induction h with
  | nil => rfl
  | cons htext _ ih => rw [List.flatten_cons, banners_append, htext.banners_eq, ih, List.map_cons, List.singleton_append]

/-! ### Filled vtables -/

theorem Texts.keeps_filled (h : Texts loader classes s s' lines) (hs : s.Resolved loader) (hc : c ∈ s.classes.latest)
    (hfilled : s.Filled c) : s'.Filled c := by
  refine (h.keep (P := fun s => s.Resolved loader ∧ c ∈ s.classes.latest ∧ s.Filled c) (fun hstep h => ?_)
    (fun names h => ?_) ⟨hs, hc, hfilled⟩).2.2
  · obtain ⟨hs, hc, hfilled⟩ := h
    refine ⟨hstep.resolved hs, hstep.latest_suffix.subset hc, ?_⟩
    exact hs.described.filled_step hstep hs.defined.linked hs.populated hc hfilled
  · obtain ⟨hs, hc, hfilled⟩ := h
    exact ⟨(Texts.mark names .nil).resolved hs, hc, hfilled⟩

/-- Once the text of a class is written, its vtable has its contents. -/
theorem Texts.filled (h : Texts loader classes s s' lines) (hs : s.Resolved loader) :
    ∀ c ∈ classes, ¬ c.isInterface → s'.Filled c := by
  induction h with
  | nil => exact nofun
  | mark names _ ih => exact ih ((Texts.mark names .nil).resolved hs)
  | @text s s' c classes lines hc hf h ih =>
    have hresolved : (s.classListing loader c).state.Resolved loader :=
      (steps_classListing hc).keep (P := Resolved loader) (fun hstep h => hstep.resolved h) hs
    refine List.forall_mem_cons.2 ⟨fun hclass => ?_, ih hresolved⟩
    obtain ⟨header, -, -, heq⟩ := classListing_of_success hf
    have hmethods : Steps loader s _ := steps_methodsListing header c.name c.methods s
    have hbefore := hmethods.keep (P := Resolved loader) (fun hstep h => hstep.resolved h) hs
    refine h.keeps_filled hresolved ((steps_classListing hc).mem_classes hc) ?_
    rw [heq]
    exact filled_fillVtable hbefore.populated (hmethods.mem_classes hc) hclass

/-! ### The data -/

/-- The banners over the parts of the data. -/
def dataBanners : List String :=
  ["static fields", "alias labels for runtime objects", "runtime objects"]

theorem label_or_directive_of_mem {r : ObjectResolver} {e : Emission} {ids : List ObjectId} {line : Line}
    (h : line ∈ ids.zipIdx.flatMap fun (id, n) => .label (LabelTable.label n) :: e.text r id) :
    (∃ name, line = .label name) ∨ ∃ name values, line = .directive name values := by
  obtain ⟨⟨id, n⟩, -, hline⟩ := List.mem_flatMap.1 h
  rcases List.mem_cons.1 hline with rfl | hline
  · exact .inl ⟨_, rfl⟩
  · unfold Emission.text at hline
    split at hline
    · exact .inr (DataItem.directive_of_mem_lines hline)
    · cases hline

theorem banners_objects (r : ObjectResolver) (e : Emission) (ids : List ObjectId) :
    banners (ids.zipIdx.flatMap fun (id, n) => .label (LabelTable.label n) :: e.text r id) = [] := by
  refine banners_eq_nil fun line hline => ?_
  rcases label_or_directive_of_mem hline with ⟨name, rfl⟩ | ⟨name, values, rfl⟩ <;> rfl

theorem banners_dataLines (h : s.labels.Proper) (hf : (s.dataLines loader).failure = none) :
    banners (s.dataLines loader).lines = dataBanners ∧ ∀ i, Line.instr i ∉ (s.dataLines loader).lines := by
  obtain ⟨labels, e, ids, aliases, -, -, -, -, -, -, haliases, hlines⟩ := dataLines_written h hf
  have haliasBanners : banners aliases = [] := banners_eq_nil fun line hline => by
    obtain ⟨x, label, rfl⟩ := haliases line hline
    rfl
  rw [hlines]
  refine ⟨?_, fun i hi => ?_⟩
  · simp only [banners_append, haliasBanners, banners_objects]
    rfl
  · simp only [List.mem_append, staticFieldLines] at hi
    rcases hi with (((((hi | hi) | hi) | hi) | hi) | hi) | hi
    · simp at hi
    · simp at hi
    · obtain ⟨x, label, heq⟩ := haliases _ hi
      cases heq
    · simp at hi
    · simp at hi
    · rcases label_or_directive_of_mem hi with ⟨name, heq⟩ | ⟨name, values, heq⟩ <;> cases heq
    · simp at hi

/-! ### The program -/

theorem nodup_banners (hlinked : s.classes.Linked loader) (hmem : ∀ c ∈ classes, c ∈ s.classes.latest)
    (hnodup : (classes.map (·.name)).Nodup) : (classes.map banner ++ dataBanners).Nodup := by
  have hclass (name : String) : ∀ text ∈ dataBanners, "class " ++ name ≠ text := by
    intro text htext heq
    have hhead := congrArg (fun x => x.toList.head?) heq
    simp only [dataBanners, List.mem_cons, List.not_mem_nil, or_false] at htext
    rcases htext with rfl | rfl | rfl <;> simp at hhead
  refine List.nodup_append.2 ⟨?_, by decide, fun a ha b hb => ?_⟩
  · rw [List.nodup_iff_pairwise_ne, List.pairwise_map] at hnodup ⊢
    refine hnodup.imp_of_mem fun {c d} hc hd hne heq => hne ?_
    have hform {c : ClassInfo} (hc : c ∈ classes) : ClassName.slashed c.name = c.name := by
      obtain ⟨file, super, hbuilds⟩ := hlinked.builds c (hmem c hc)
      exact hbuilds.name.1
    exact ClassName.dotted_inj (hform hc) (hform hd) ((String.append_right_inj _).1 heq)
  · obtain ⟨c, -, rfl⟩ := List.mem_map.1 ha
    exact hclass _ b hb

/-- An accepted program, in the session in which its data is written: its classes with their texts, once as the listings
of their methods and once instruction by instruction, and the class that gives the layout of arrays. -/
theorem compile_texts {prologue : ByteArray} (hf : (({} : Session).compile loader prologue entry).failure = none) :
    ∃ (s : Session) (a : ClassInfo) (classes : List ClassInfo) (lines : List Line),
      s.isClosed ∧ s.Resolved loader ∧ s.Gathered loader entry (some a) ∧ s.labels.Proper ∧
      (∀ name, s.Has name ↔ Needed loader entry name) ∧ classes.Perm s.classes.order ∧ SuperFirst [] classes ∧
      (∃ texts, List.Forall₂ (IsText loader a.layout.size) classes texts ∧ lines = texts.flatten) ∧
      (∃ texts, List.Forall₂ (TextWith (Emitted loader s a.layout.size)) classes texts ∧ lines = texts.flatten) ∧
      (∀ c ∈ classes, ¬ c.isInterface → s.Filled c) ∧ (s.dataLines loader).failure = none ∧
      ({} : Session).compile loader prologue entry = (s.dataLines loader).prepend (.raw prologue :: lines) := by
  obtain ⟨s₁, c, s, classes, s', lines, hboot, hentry, htexts, horder, hclasses, hnames, hdata, heq⟩ :=
    compile_in_order hf
  have hchanges := changes_bootstrap loader {}
  rw [hboot] at hchanges
  have hsteps : Steps loader {} s := (hchanges.trans (changes_resolveClass hentry)).steps
  have hresolved := htexts.resolved hsteps.resolved
  obtain ⟨⟨a, hgathered₁⟩, hobject, harray, hstring⟩ := gathered_bootstrap entry hboot
  have hgathered := gathered_resolveClass hentry .entry hgathered₁
  obtain ⟨hgathered', hreferences⟩ := htexts.gathered hsteps.resolved.defined.linked hgathered
  have hneeded (name : String) : s'.Has name ↔ Needed loader entry name := by
    have hlater {name : String} (h : s.Has name) : s'.Has name := h.mono fun _ hc => htexts.mem_classes hc
    have hsuffix := (changes_resolveClass hentry).steps.latest_suffix.subset
    refine ⟨fun ⟨k, hk, hname⟩ => hname ▸ hgathered'.needed k hk, fun hname => ?_⟩
    exact has_of_needed hresolved.defined (fun k hk => hreferences k ((hclasses k).1 hk)) (hlater (hobject.mono hsuffix))
      (hlater (harray.mono hsuffix)) (hlater (hstring.mono hsuffix)) (hlater (has_of_resolveClass hentry)) hname
  have hperm := perm_order hresolved.defined.linked.ordered hclasses hnames
  exact ⟨s'.close, a, classes, lines, rfl, hresolved.close, ⟨hgathered'.needed, hgathered'.leaves, hgathered'.array_eq⟩,
    htexts.proper (hsteps.proper .empty), hneeded, hperm, horder, htexts.isText (Reached.start.steps hsteps) hgathered,
    htexts.emitted hsteps.resolved.defined.linked hgathered (List.suffix_refl _), htexts.filled hsteps.resolved, hdata,
    heq⟩

theorem state_compile {prologue : ByteArray} {a : ClassInfo} {text : List Line}
    (hgathered : s.Gathered loader entry (some a)) (hproper : s.labels.Proper)
    (hdata : (s.dataLines loader).failure = none)
    (heq : ({} : Session).compile loader prologue entry = (s.dataLines loader).prepend text) :
    (({} : Session).compile loader prologue entry).state.classes = s.classes ∧
      (({} : Session).compile loader prologue entry).state.arrayHeaderSize = .ok a.layout.size := by
  obtain ⟨-, e, -, -, hstate, -⟩ := dataLines_written hproper hdata
  rw [heq, Listing.prepend, hstate]
  exact ⟨rfl, by rw [arrayHeaderSize, hgathered.array_eq]⟩

/-- The classes of an accepted program are those that it needs: the least set that holds its entry class and the classes
of the runtime, and with each class its superclass and those that its bodies refer to. Its text is that of all its
classes, one after the other, each class once and after its superclass, with one banner for each and one body for each
of its methods. No banner and no code stands in the data that follows, and before the data is written the vtable of
each class has its contents. -/
theorem needed_compiled_once {prologue : ByteArray} {result : Listing Session}
    (hresult : ({} : Session).compile loader prologue entry = result) (hf : result.failure = none) :
    (∀ name, (∃ c ∈ result.state.classes.order, c.name = name) ↔ Needed loader entry name) ∧
      (result.state.classes.order.map (·.name)).Nodup ∧
      ∃ (header : Nat) (classes : List ClassInfo) (texts : List (List Line)) (s : Session),
        result.state.arrayHeaderSize = .ok header ∧ classes.Perm result.state.classes.order ∧ SuperFirst [] classes ∧
        List.Forall₂ (IsText loader header) classes texts ∧
        result = (s.dataLines loader).prepend (.raw prologue :: texts.flatten) ∧
        banners result.lines = classes.map banner ++ dataBanners ∧ (banners result.lines).Nodup ∧
        (∀ i, Line.instr i ∉ (s.dataLines loader).lines) ∧
        ∀ c ∈ classes, ¬ c.isInterface → s.Filled c := by
  subst hresult
  obtain ⟨s, a, classes, _, -, hresolved, hgathered, hproper, hneeded, hperm, horder, ⟨texts, htexts, rfl⟩, -, hfilled,
    hdata, heq⟩ := compile_texts hf
  obtain ⟨hclasses, hheader⟩ := state_compile hgathered hproper hdata heq
  obtain ⟨hbanners, hcode⟩ := banners_dataLines hproper hdata
  have hlinked := hresolved.defined.linked
  have hnames : (classes.map (·.name)).Nodup :=
    (hperm.map _).nodup_iff.2 hlinked.ordered.nodup_order
  have hall : banners (({} : Session).compile loader prologue entry).lines = classes.map banner ++ dataBanners := by
    rw [heq, Listing.prepend, banners_append, banners_cons, banners_texts htexts, hbanners]
    rfl
  refine ⟨fun name => ?_, ?_, a.layout.size, classes, texts, s, hheader, ?_, horder, htexts, heq, hall, ?_, hcode,
    hfilled⟩
  · rw [← hneeded, hclasses]
    simp only [ClassTable.mem_order, Has]
  · rw [hclasses]
    exact hlinked.ordered.nodup_order
  · rwa [hclasses]
  · rw [hall]
    exact nodup_banners hlinked (fun c hc => ClassTable.mem_order.1 (hperm.subset hc)) hnames

/-- A program that makes an array of arrays of leaves. Only its initializer makes a ghost. -/
def forest : Loader where
  load
    | "java/lang/Object" => .ok (classFile 0x0001 "java/lang/Object" none [⟨⟨0⟩, "vtable", "I"⟩] [])
    | "java/lang/Array" =>
      .ok (classFile 0x0001 "java/lang/Array" (some "java/lang/Object") [⟨⟨0⟩, "length", "I"⟩] [])
    | "java/lang/String" =>
      .ok (classFile 0x0001 "java/lang/String" (some "java/lang/Object") [⟨⟨0⟩, "value", "[C"⟩] [])
    | "Main" => .ok (classFile 0x0001 "Main" (some "java/lang/Object") []
        [⟨⟨0x0009⟩, "grow", "()V", some
            { maxStack := 1, maxLocals := 0, handlers := []
              instructions :=
                [{ offset := 1, opcode := .iconst 3 },
                  { offset := 2, opcode := .anewarray, constant := some ⟨1, .classRef "[LLeaf;"⟩ },
                  { offset := 5, opcode := .pop }, { offset := 6, opcode := .returnVoid }] }⟩,
          ⟨⟨0x0001⟩, "<init>", "()V", some
            { maxStack := 1, maxLocals := 1, handlers := []
              instructions :=
                [{ offset := 1, opcode := .new, constant := some ⟨2, .classRef "Ghost"⟩ },
                  { offset := 4, opcode := .pop }, { offset := 5, opcode := .returnVoid }] }⟩])
    | "Leaf" => .ok (classFile 0x0001 "Leaf" (some "Plant") [] [])
    | "Plant" => .ok (classFile 0x0001 "Plant" (some "java/lang/Object") [] [])
    | "Ghost" => .ok (classFile 0x0001 "Ghost" (some "java/lang/Object") [] [])
    | name => .error (Cause.classNotFound name : Failure)
  limit := 7

theorem forest_without_ghost :
    (({} : Session).compile forest ByteArray.empty "Main").failure = none ∧
      Needed forest "Main" "Leaf" ∧ Needed forest "Main" "Plant" ∧ ¬ Needed forest "Main" "Ghost" := by
  obtain ⟨haccepted, horder⟩ : (({} : Session).compile forest ByteArray.empty "Main").failure = none ∧
      (({} : Session).compile forest ByteArray.empty "Main").state.classes.order.map (·.name) =
        ["java/lang/Object", "java/lang/Array", "java/lang/String", "Main", "Plant", "Leaf"] := by decide +kernel
  have hneeded (name : String) : name ∈ ["java/lang/Object", "java/lang/Array", "java/lang/String", "Main", "Plant",
      "Leaf"] ↔ Needed forest "Main" name := by
    rw [← horder, ← (needed_compiled_once rfl haccepted).1 name, List.mem_map]
  exact ⟨haccepted, (hneeded _).1 (by decide), (hneeded _).1 (by decide), fun h => absurd ((hneeded _).2 h) (by decide)⟩

end Session

end JvmAot
