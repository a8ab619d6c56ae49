import JvmAot.Proofs.Session.Closure

/-! # Texts, instruction by instruction

The text of a class is made of the bodies of its methods, and a body of the code of its instructions. `Emitted` says how
the code of one instruction comes about, and `Texts.emitted` that all code in the texts of a program does so. What holds
of the code of each instruction is then a property of the whole text (`TextWith.mono`). -/

namespace JvmAot

/-! ### Machine instructions in a text -/

/-- The machine instructions of a text. -/
def codeOf (lines : List Line) : List Instr :=
  lines.filterMap fun
    | .instr i => some i
    | _ => none

theorem codeOf_append (lines lines' : List Line) : codeOf (lines ++ lines') = codeOf lines ++ codeOf lines' :=
  List.filterMap_append

theorem codeOf_instrs (code : List Instr) : codeOf (code.map Line.instr) = code := by
  induction code with
  | nil => rfl
  | cons i code ih => exact congrArg (i :: ·) ih

theorem codeOf_label (label : String) (lines : List Line) : codeOf (.label label :: lines) = codeOf lines :=
  rfl

theorem codeOf_blank : codeOf [.blank] = [] :=
  rfl

theorem codeOf_labelLines (scope : Scope) (offset : Int) : codeOf (scope.labelLines offset) = [] := by
  unfold Scope.labelLines
  cases scope.label? offset <;> rfl

/-! ### Instructions in a text -/

namespace Session

variable {loader : Loader} {entry className : String} {s s' t : Session} {a c : ClassInfo} {classes : List ClassInfo}
  {lines : List Line} {P Q : Instruction → List Instr → Prop}

/-- The lines of an instruction with the given code. -/
def instructionLines (scope : Scope) (i : Instruction) (code : List Instr) : List Line :=
  scope.labelLines i.offset ++ code.map Line.instr

/-- A body in which the code of each instruction has the property `P`, between what opens and what closes it. -/
def BodyWith (P : Instruction → List Instr → Prop) (c : ClassInfo) (m : MethodInfo) (body : List Line) : Prop :=
  match m.decl.body? with
  | none => body = []
  | some code => ∃ words codes, List.Forall₂ P code.instructions codes ∧
      body = .label m.symbol :: (Template.enter code.maxLocals words).map Line.instr ++
        (List.zipWith (instructionLines (m.decl.bodyScope 0 c.name code)) code.instructions codes).flatten ++
        (.label (Symbol.returnLabel m.symbol) :: (Template.leave code.maxLocals).map Line.instr ++ [.blank])

/-- The text of a class in which the code of each instruction has the property `P`. -/
def TextWith (P : Instruction → List Instr → Prop) (c : ClassInfo) (text : List Line) : Prop :=
  ∃ bodies, List.Forall₂ (BodyWith P c) c.methods bodies ∧
    text = .banner ("class " ++ ClassName.dotted c.name) :: bodies.flatten ++ [.blank]

theorem BodyWith.mono {m : MethodInfo} {body : List Line} (h : BodyWith P c m body)
    (hPQ : ∀ {i code}, P i code → Q i code) : BodyWith Q c m body := by
  unfold BodyWith at h ⊢
  split at h
  · exact h
  · obtain ⟨words, codes, hcodes, hbody⟩ := h
    exact ⟨words, codes, hcodes.imp fun _ _ => hPQ, hbody⟩

theorem TextWith.mono {text : List Line} (h : TextWith P c text) (hPQ : ∀ {i code}, P i code → Q i code) :
    TextWith Q c text := by
  obtain ⟨bodies, hbodies, htext⟩ := h
  exact ⟨bodies, hbodies.imp fun _ _ hbody => hbody.mono hPQ, htext⟩

/-- The code of an instruction as it is made with the given array header, in a session whose classes the session `t`
still has. -/
def Emitted (loader : Loader) (t : Session) (header : Nat) (i : Instruction) (code : List Instr) : Prop :=
  ∃ (scope : Scope) (className : String) (s s' : Session), scope.header = header ∧
    s'.classes.latest <:+ t.classes.latest ∧ (scope.lower i).run (context loader className) s = ({ code }, s')

theorem emitted_listing {scope : Scope} {header : Nat} {instructions : List Instruction} (hheader : scope.header = header)
    (hf : (scope.listing (context loader className) instructions s).failure = none)
    (hsuffix : (scope.listing (context loader className) instructions s).state.classes.latest <:+ t.classes.latest) :
    ∃ codes, List.Forall₂ (Emitted loader t header) instructions codes ∧
      (scope.listing (context loader className) instructions s).lines =
        (List.zipWith (instructionLines scope) instructions codes).flatten := by
  induction instructions generalizing s with
  | nil => exact ⟨[], .nil, rfl⟩
  | cons i rest ih =>
    obtain ⟨code, s₁, hrun, hrest, hlines⟩ := Scope.listing_cons hf
    have hstate : (scope.listing (context loader className) (i :: rest) s).state =
        (scope.listing (context loader className) rest s₁).state := by
      rw [Scope.listing, hrun]
      rfl
    rw [hstate] at hsuffix
    have hsteps : Steps loader s₁ (scope.listing (context loader className) rest s₁).state := steps_listing rest s₁
    obtain ⟨codes, hcodes, heq⟩ := ih hrest hsuffix
    have hfirst : Emitted loader t header i code :=
      ⟨scope, className, s, s₁, hheader, hsteps.latest_suffix.trans hsuffix, hrun⟩
    refine ⟨code :: codes, .cons hfirst hcodes, ?_⟩
    rw [hlines, heq]
    rfl

theorem emitted_methodListing {m : MethodInfo} {header : Nat} (howner : m.owner = c.name)
    (hf : (m.decl.listing (context loader c.name) header c.name s).failure = none)
    (hsuffix : (m.decl.listing (context loader c.name) header c.name s).state.classes.latest <:+ t.classes.latest) :
    BodyWith (Emitted loader t header) c m (m.decl.listing (context loader c.name) header c.name s).lines := by
  unfold BodyWith
  cases hbody : m.decl.body? with
  | none => simp [MethodDecl.listing, hbody]
  | some code =>
    cases htype : MethodType.parse m.decl.descriptor with
    | error => simp [MethodDecl.listing, hbody, htype] at hf
    | ok type =>
      obtain ⟨-, hfail, hlines⟩ := MethodDecl.lines_listing hbody htype hf
      rw [state_methodListing hbody htype hf] at hsuffix
      obtain ⟨codes, hcodes, heq⟩ := emitted_listing rfl hfail hsuffix
      refine ⟨m.decl.argumentWords type, codes, hcodes, ?_⟩
      rw [hlines, Scope.linesBefore, List.take_length, heq, DeclaredMethod.symbol, howner]
      rfl

theorem emitted_methodsListing {header : Nat} {methods : List MethodInfo} (howner : ∀ m ∈ methods, m.owner = c.name)
    (hf : (s.methodsListing loader header c.name methods).failure = none)
    (hsuffix : (s.methodsListing loader header c.name methods).state.classes.latest <:+ t.classes.latest) :
    ∃ bodies, List.Forall₂ (BodyWith (Emitted loader t header) c) methods bodies ∧
      (s.methodsListing loader header c.name methods).lines = bodies.flatten := by
  induction methods generalizing s with
  | nil => exact ⟨[], .nil, rfl⟩
  | cons m rest ih =>
    obtain ⟨hfirst, hrest, heq⟩ := Listing.andThen_of_success hf
    rw [methodsListing, heq] at hsuffix ⊢
    obtain ⟨hown, howners⟩ := List.forall_mem_cons.1 howner
    obtain ⟨bodies, hbodies, hlines⟩ := ih howners hrest hsuffix
    have hsteps : Steps loader _ _ := steps_methodsListing header c.name rest
      (m.decl.listing (context loader c.name) header c.name s).state
    refine ⟨_ :: bodies, .cons (emitted_methodListing hown hfirst (hsteps.latest_suffix.trans hsuffix)) hbodies, ?_⟩
    rw [Listing.prepend, hlines, List.flatten_cons]

/-- All code in the texts of classes goes by one array header, and by classes that a later session still has. -/
theorem Texts.emitted (h : Texts loader classes s s' lines) (hs : s.classes.Linked loader)
    (hgathered : s.Gathered loader entry (some a)) (hsuffix : s'.classes.latest <:+ t.classes.latest) :
    ∃ texts, List.Forall₂ (TextWith (Emitted loader t a.layout.size)) classes texts ∧ lines = texts.flatten := by
  induction h with
  | nil => exact ⟨[], .nil, rfl⟩
  | mark _ _ ih => exact ih hs ⟨hgathered.needed, hgathered.leaves, hgathered.array_eq⟩ hsuffix
  | @text s s' c classes lines hc hf h ih =>
    obtain ⟨texts, htexts, hlines⟩ :=
      ih (linked_classListing hs hc) (gathered_classListing hs hc hgathered hf).1 hsuffix
    obtain ⟨header, hheader, hmethods, heq⟩ := classListing_of_success hf
    obtain rfl : a.layout.size = header := by
      rw [arrayHeaderSize, hgathered.array_eq] at hheader
      exact Except.ok.inj hheader
    -- The texts that follow resolve more classes, but all these come in front.
    have hlater : (s.classListing loader c).state.classes.latest <:+ t.classes.latest :=
      (h.keep (P := fun s' => (s.classListing loader c).state.classes.latest <:+ s'.classes.latest)
        (fun hstep h => h.trans hstep.latest_suffix) (fun _ h => h) (List.suffix_refl _)).trans hsuffix
    have howner : ∀ m ∈ c.methods, m.owner = c.name := by
      intro m hm
      obtain ⟨-, -, d, -, hdecl⟩ := hs.declared hc hm
      exact hdecl.owner
    rw [heq] at hlater
    obtain ⟨bodies, hbodies, hbodyLines⟩ := emitted_methodsListing howner hmethods hlater
    refine ⟨_ :: texts, .cons ⟨bodies, hbodies, rfl⟩ htexts, ?_⟩
    rw [heq, hbodyLines, hlines, List.flatten_cons]

end Session

end JvmAot
