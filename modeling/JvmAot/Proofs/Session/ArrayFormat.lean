import JvmAot.Proofs.Heap.Arrays
import JvmAot.Proofs.Lowering.Calls
import JvmAot.Proofs.Session.CodeStorage
import JvmAot.Proofs.Session.Definitions
import JvmAot.Proofs.Session.Program

/-! # The format of arrays

The code of a program finds the length and the elements of an array by the layout of the class of arrays
(`Session.AccessesArrays`), but its data has all arrays with a header of two words (`Session.ArraysHave`). So the two
agree exactly if the layout has that size. -/

namespace JvmAot

open Template

theorem BaseType.shiftLeft_shift (b : BaseType) (index : Word) :
    index <<< b.shift = index * BitVec.ofNat 32 b.bytes := by
  cases b <;> exact BitVec.shiftLeft_eq_mul_twoPow ..

/-- Code adds the header to the address last. -/
theorem BaseType.element_address (b : BaseType) (array index header : Word) :
    array + index <<< b.shift + header = array + header + index * BitVec.ofNat 32 b.bytes := by
  rw [shiftLeft_shift, BitVec.add_assoc, BitVec.add_assoc, BitVec.add_comm (index * _)]

namespace Session

variable {loader : Loader} {entry : String} {s t : Session} {c : ClassInfo} {prologue : ByteArray}

/-! ### Arrays in code -/

/-- The code of an instruction takes arrays to have their elements from the offset `header` on, and their length in the
word before. A virtual call takes the vtable of an object, whose address is in the first word of the object, for such an
array: it calls what is in the slot that its method has in the class `c` that it names. In all classes that extend `c`,
this slot is that of the method that they dispatch the call to. -/
structure AccessesArrays (t : Session) (header : Nat) (i : Instruction) (code : List Instr) : Prop where
  length : i.opcode = .arraylength → ∀ pool array,
    LoadsAt code BaseType.int.fieldType pool [array] (array + BitVec.ofInt 32 ((header : Int) - 4))
  load : ∀ {kind : ElementKind}, i.opcode = .arrayLoad kind → ∀ pool array index,
    LoadsAt code kind.baseType.fieldType pool [index, array]
      (array + BitVec.ofInt 32 header + index * BitVec.ofNat 32 kind.baseType.bytes)
  store : ∀ {kind : ElementKind}, i.opcode = .arrayStore kind → ∀ pool array index,
    StoresAt code kind.baseType.fieldType pool [index, array]
      (array + BitVec.ofInt 32 header + index * BitVec.ofNat 32 kind.baseType.bytes)
  call : ∀ {slot tag owner name descriptor}, i.opcode = .invokevirtual →
    i.constant = some { slot, value := .member tag owner name descriptor } →
    ∃ (c : ClassInfo) (k : Nat) (type : MethodType) (fetch after : List Instr),
      t.classes.find? (ClassName.slashed owner) = some c ∧ MethodType.parse descriptor = .ok type ∧
      (∀ d ∈ t.classes.order, c ∈ t.classes.chain d → ∃ m : DeclaredMethod,
        d.vtable.find? (slotKey name descriptor) = some (m, k) ∧
          (d.vtableContents d.metadata)[k]? = some m.vtableEntry) ∧
      code = fetch ++ .callRegister .t0 :: after ∧
      ∀ {symbols : String → Option Word} {A : Area} {heap : Memory} {base stack arguments : List Word} {m : Machine}
        {object entry : Word}, arguments.length = type.parameterWords →
        InFrame A heap base ((object :: arguments).reverse ++ stack) m →
        m.mem.word (m.mem.word object + BitVec.ofInt 32 (header + 4 * k)) = entry →
        wp symbols fetch (fun m' => InFrame A heap base stack m' ∧ m'.get .t0 = entry) m

theorem wp_fetch {symbols : String → Option Word} {A : Area} {heap : Memory} {base stack arguments : List Word}
    {m : Machine} {object entry : Word} {header : Int} {k : Nat} {type : MethodType}
    (hfew : type.parameterWords + 1 ≤ Register.arguments.length) (hlength : arguments.length = type.parameterWords)
    (h : InFrame A heap base ((object :: arguments).reverse ++ stack) m)
    (hentry : m.mem.word (m.mem.word object + BitVec.ofInt 32 (header + 4 * k)) = entry) :
    wp symbols (popArguments (type.parameterWords + 1) ++ (callVirtual header k).take 2)
      (fun m' => InFrame A heap base stack m' ∧ m'.get .t0 = entry) m := by
  have hwords : (object :: arguments).length = type.parameterWords + 1 := by rw [List.length_cons, hlength]
  rw [← hwords] at hfew ⊢
  refine wp_append.2 (wp_mono (h.wp_popArguments hfew) fun m₁ h₁ => ?_)
  obtain ⟨h₁, hcarry, -, hmem⟩ := h₁
  rw [← hmem] at hentry
  exact wp_mono (h₁.wp_lookup hcarry hentry) fun m₂ h₂ => ⟨h₂.1, h₂.2.2⟩

/-- A reference to a method has the slot of its key in the class that it names. -/
theorem slot?_of_methodRef {classes : ClassTable} {name descriptor : String} {m : MethodInfo} {k : Nat}
    (hm : classes.findMethod c name descriptor = .ok m) (hslot : (methodRef c m).slot = some k) :
    c.vtable.slot? (slotKey name descriptor) = some k := by
  obtain ⟨-, -, -, rfl, rfl⟩ := ClassTable.of_findMethod hm
  rw [methodRef] at hslot
  dsimp only at hslot
  split at hslot
  · cases hslot
  · exact hslot

theorem Emitted.accessesArrays {header : Nat} {i : Instruction} {code : List Instr} (ht : t.classes.Linked loader)
    (h : Emitted loader t header i code) : t.AccessesArrays header i code := by
  obtain ⟨scope, className, s, s', hheader, hsuffix, hrun⟩ := h
  refine ⟨fun hopcode pool array => ?_, fun {kind} hopcode pool array index => ?_,
    fun {kind} hopcode pool array index => ?_, fun {slot tag owner name descriptor} hopcode hconstant => ?_⟩
  · rw [Scope.lower, hopcode, hheader] at hrun
    cases hrun
    exact loadsAt_arrayLength pool array header
  · rw [Scope.lower, hopcode, hheader] at hrun
    cases hrun
    rw [← BaseType.element_address]
    exact Location.loadsAt_getCode (.element array index kind) pool header
  · rw [Scope.lower, hopcode, hheader] at hrun
    cases hrun
    rw [← BaseType.element_address]
    exact Location.storesAt_putCode (.element array index kind) pool header
  · rw [Scope.lower, hopcode, hconstant, hheader] at hrun
    obtain ⟨type, target, k, htype, hanswer, hslot, hfew, rfl⟩ := Lowering.of_run_invoke_virtual hrun
    obtain ⟨c, m, hfind, hm, rfl⟩ := method_of_answer className hanswer
    have hkey := slot?_of_methodRef hm hslot
    refine ⟨c, k, type, popArguments (type.parameterWords + 1) ++ (callVirtual header k).take 2,
      pushResult type.resultWords, ht.ordered.find?_of_suffix hsuffix hfind, htype, fun d hd hc => ?_, ?_,
      fun hlength h hentry => wp_fetch hfew hlength h hentry⟩
    · obtain ⟨m, hfind⟩ := Vtable.exists_find? (ht.slot?_of_mem_chain (ClassTable.mem_order.1 hd) hc hkey)
      exact ⟨m, hfind, Vtable.getElem?_build _ _ hfind⟩
    · simp [callVirtual]

/-! ### Arrays in data -/

/-- The data of an object with the heap and the labels of a session. -/
def objectText (loader : Loader) (s : Session) (id : ObjectId) : List Line :=
  Emission.text (s.objectResolver loader) { heap := s.heap, labels := s.labels } id

/-- The text of each array that has a label, wherever it stands, is read as an array with the given header. -/
def ArraysHave (loader : Loader) (s : Session) (header : Nat) : Prop :=
  ∀ id o, .object id ∈ s.labels.order.toList → s.heap.get? id = some o → o.IsArray → ∀ start,
    ∃ size cells bytes, o.HasCells s.labels size cells ∧ assemble? start (s.objectText loader id) = some bytes ∧
      ArrayFormat header size cells bytes

/-- The text of each object that has a label is the data of the object. -/
def ObjectsWritten (loader : Loader) (s : Session) : Prop :=
  ∀ id o, .object id ∈ s.labels.order.toList → s.heap.get? id = some o →
    s.heap.Serializes (s.objectResolver loader) s.labels o (s.objectText loader id)

/-- Once resolution has ended, what is said about objects depends on the classes and array types only. -/
theorem objectResolver_of_isClosed (h : s.isClosed) (heap : Heap) (labels : LabelTable) :
    { s with heap, labels }.objectResolver loader = s.objectResolver loader := by
  have hclosed : { s with heap, labels }.isClosed := h
  have harrays (descriptor : String) :
      ({ s with heap, labels }.resolveArray loader descriptor).1 = (s.resolveArray loader descriptor).1 := by
    simp only [resolveArray, h, hclosed, if_true]
    split <;> rfl
  have hclasses (name : String) :
      ({ s with heap, labels }.resolveClass loader name).1 = (s.resolveClass loader name).1 := by
    simp only [resolveClass, resolveClassWithin, h, hclosed, if_true]
    split
    · rfl
    · split <;> rfl
  simp only [objectResolver, harrays, hclasses]

theorem ObjectsWritten.arraysHave_eight (h : s.ObjectsWritten loader) : s.ArraysHave loader 8 := by
  intro id o hid hget ho start
  obtain ⟨_, text, size, cells, padding, -, hcells, hread⟩ := (h id o hid hget).array ho start
  exact ⟨size, cells, _, hcells, hread, arrayFormat_eight hcells.length_of_mem text _⟩

/-- The vtable of a class has its contents, and a label. -/
def VtableWritten (s : Session) (c : ClassInfo) : Prop :=
  ∃ v type, s.heap.vtable c.metadata = .object v ∧ .object v ∈ s.labels.order.toList ∧
    s.heap.get? v = some (.objectArray type (c.vtableContents c.metadata))

theorem Filled.vtableWritten {t : Session} (hfilled : s.Filled c) (hgrows : s.heap.Grows t.heap)
    (hlabel : ∀ v, s.heap.vtable c.metadata = .object v → .object v ∈ t.labels.order.toList) : t.VtableWritten c := by
  obtain ⟨m, v, type, hm, hv, hget⟩ := Heap.vtableEntries?_eq_some_iff.1 hfilled
  have hvtable : s.heap.vtable c.metadata = .object v := by simp [Heap.vtable, hm, hv]
  refine ⟨v, type, ?_, hlabel v hvtable, hgrows.kept v _ hget (by simp)⟩
  rw [hgrows.vtable, hvtable]

/-- The symbol of a method has an underscore, and no label has one. -/
theorem symbol_ne_label (m : DeclaredMethod) (n : Nat) : m.symbol ≠ LabelTable.label n := by
  intro heq
  have hmem : '_' ∈ m.symbol.toList := by
    rw [DeclaredMethod.symbol, Symbol.ofMethod]
    simp
  obtain ⟨-, -, -, hnone⟩ := Symbol.getLast?_toString n
  rw [heq, LabelTable.label, String.toList_append, List.mem_append] at hmem
  exact hmem.elim (by decide) hnone

theorem eq_of_names_label {t : LabelTable} {v : Value} {n : Nat} (h : t.Names v (LabelTable.label n)) :
    v = .symbol (LabelTable.label n) ∨ t.order.toList[n]? = some v := by
  have hnull : LabelTable.label n ≠ "0" := fun heq => by
    have hdata := Heap.itemData_label 4 n
    rw [heq] at hdata
    cases hdata
  generalize htext : LabelTable.label n = text at h hnull
  cases h with
  | null => exact absurd rfl hnull
  | symbol => exact .inl rfl
  | object hn => exact .inr (LabelTable.label_inj htext ▸ hn)

/-- The metadata of a class stands in the first slot of its vtable and nowhere else in it, so the vtable gives the header
away. -/
theorem VtableWritten.header_eq {header : Nat} (hvtable : s.VtableWritten c) (hproper : s.labels.Proper)
    (hself : ∀ id, s.heap.vtable id ≠ .object c.metadata) (hwritten : s.ObjectsWritten loader)
    (harrays : s.ArraysHave loader header) : header = 8 := by
  obtain ⟨v, type, -, hid, hget⟩ := hvtable
  have hcontents : c.vtableContents c.metadata =
      .object c.metadata :: c.vtable.slots.map fun slot => slot.2.vtableEntry := rfl
  rw [hcontents] at hget
  obtain ⟨id, text, _, _, padding, htext, hcells, hread⟩ := (hwritten v _ hid hget).array trivial 0
  obtain ⟨_, _, _, hcells', hread', hformat⟩ := harrays v _ hid hget trivial 0
  obtain rfl := Option.some.inj (hread.symm.trans hread')
  cases hcells with | objectArray hnames =>
  cases hcells' with | objectArray hnames' =>
  cases hnames with | cons hfirst hrest =>
  cases hnames' with | cons hfirst' _ =>
  obtain rfl := hproper.names_unique hfirst hfirst'
  have hstand := hformat.element 0 _ rfl
  rw [Nat.zero_mul, Nat.add_zero] at hstand
  cases hfirst with | @object _ n hn =>
  refine eight_of_prefix_drop (Heap.itemData_label 4 n) (fun heq => ?_) (fun hmem => ?_) hstand
  · rcases eq_of_names_label (heq ▸ htext) with hsymbol | hobject
    · exact s.heap.symbol_ne_vtable id hsymbol.symm
    · exact hself id (Option.some.inj (hobject.symm.trans hn))
  · obtain ⟨entry, hentry, hname⟩ := LabelTable.exists_names_of_mem hrest hmem
    obtain ⟨slot, -, rfl⟩ := List.mem_map.1 hentry
    rcases eq_of_names_label hname with hsymbol | hobject
    · unfold DeclaredMethod.vtableEntry at hsymbol
      split at hsymbol
      · cases hsymbol
      · exact symbol_ne_label _ n (Value.symbol.inj hsymbol)
    · have heq := Option.some.inj (hn.symm.trans hobject)
      unfold DeclaredMethod.vtableEntry at heq
      split at heq <;> cases heq

/-- A vtable is an array and no metadata. -/
theorem vtable_ne_metadata (hs : s.Resolved loader) (hfilled : s.Filled c) (id : ObjectId) :
    s.heap.vtable id ≠ .object c.metadata := by
  intro heq
  obtain ⟨m, -, -, hm, -, -⟩ := Heap.vtableEntries?_eq_some_iff.1 hfilled
  rw [Heap.vtable] at heq
  split at heq
  · rename_i v hv
    cases heq
    obtain ⟨m', hm', hv⟩ := Option.bind_eq_some_iff.1 hv
    obtain ⟨type, elements, hget⟩ := hs.populated.tabled id m' c.metadata hm' hv
    rw [Heap.metadata?_eq_some_iff, hget] at hm
    cases hm
  · cases heq

/-- The data of a program has the texts of its objects one after the other. -/
theorem objects_dataLines (ht : (s.dataLines loader).state = t) (hclosed : s.isClosed) (hproper : s.labels.Proper)
    (hf : (s.dataLines loader).failure = none) :
    ∃ (ids : List ObjectId) (before after : List Line), s.heap.Grows t.heap ∧
      t.labels.order.toList = ids.map .object ∧ t.labels.Proper ∧ t.ObjectsWritten loader ∧
      (∀ c ∈ s.classes.latest, ∀ v, s.heap.vtable c.metadata = .object v → .object v ∈ t.labels.order.toList) ∧
      (s.dataLines loader).lines = before ++
        (ids.zipIdx.flatMap fun (id, n) => .label (LabelTable.label n) :: t.objectText loader id) ++ after := by
  obtain ⟨labels, e, ids, aliases, hstate, hgrows, horder, hlabels, hwritten, hvtables, -, hlines⟩ :=
    dataLines_written hproper hf
  obtain rfl := ht.symm.trans hstate
  have hresolver : { s with labels }.objectResolver loader =
      { s with heap := e.heap, labels := e.labels }.objectResolver loader := by
    rw [objectResolver_of_isClosed hclosed e.heap]
    exact objectResolver_of_isClosed hclosed s.heap labels
  rw [hresolver] at hwritten hlines
  refine ⟨ids, _, _, hgrows, horder, hlabels, fun id o hid hget => ?_, fun c hc v hv => ?_, hlines⟩
  · rw [horder] at hid
    obtain ⟨id', hid', heq⟩ := List.mem_map.1 hid
    cases heq
    obtain ⟨o', hwritten⟩ := hwritten id hid'
    obtain rfl : o' = o := Option.some.inj (hwritten.get?.symm.trans hget)
    exact hwritten.serializes
  · rw [horder]
    exact List.mem_map_of_mem (hvtables c hc v hv)

/-! ### Programs -/

/-- In an accepted program the code of each instruction that accesses an array or a vtable goes by the size of an object
of the class of arrays, and the text of each array, vtables among them, is read as an array with a header of two words.
So the code finds them in its own format if that size is eight, whatever fields there are, and in a program with a vtable
only then. -/
theorem array_format_agrees_iff {result : Listing Session}
    (hresult : ({} : Session).compile loader prologue entry = result) (hf : result.failure = none) :
    ∃ (header : Nat) (classes : List ClassInfo) (texts : List (List Line)) (ids : List ObjectId)
        (before after : List Line),
      result.state.arrayHeaderSize = .ok header ∧ classes.Perm result.state.classes.order ∧
      List.Forall₂ (TextWith (result.state.AccessesArrays header)) classes texts ∧
      result.state.labels.order.toList = ids.map .object ∧
      result.lines = .raw prologue :: texts.flatten ++ (before ++
        (ids.zipIdx.flatMap fun (id, n) => .label (LabelTable.label n) :: result.state.objectText loader id) ++ after) ∧
      (∀ c ∈ classes, ¬ c.isInterface → result.state.VtableWritten c) ∧
      result.state.ArraysHave loader 8 ∧
      ((∃ c ∈ classes, ¬ c.isInterface) → (result.state.ArraysHave loader header ↔ header = 8)) := by
  subst hresult
  obtain ⟨s, a, classes, _, hclosed, hresolved, hgathered, hproper, -, hperm, -, -, ⟨texts, htexts, rfl⟩, hfilled, hdata,
    heq⟩ := compile_texts hf
  obtain ⟨hclasses, hheader⟩ := state_compile hgathered hproper hdata heq
  have hstate : (s.dataLines loader).state = (({} : Session).compile loader prologue entry).state := by
    rw [heq, Listing.prepend]
  obtain ⟨ids, before, after, hgrows, horder, hlabels, hwritten, hvtableLabels, hlines⟩ :=
    objects_dataLines hstate hclosed hproper hdata
  have hvtables : ∀ c ∈ classes, ¬ c.isInterface →
      (({} : Session).compile loader prologue entry).state.VtableWritten c := fun c hc hclass =>
    (hfilled c hc hclass).vtableWritten hgrows (hvtableLabels c (ClassTable.mem_order.1 (hperm.subset hc)))
  have hcode : List.Forall₂
      (TextWith ((({} : Session).compile loader prologue entry).state.AccessesArrays a.layout.size)) classes texts := by
    refine htexts.imp fun _ _ htext => htext.mono fun hemitted => ?_
    rw [Emitted, ← hclasses] at hemitted
    exact Emitted.accessesArrays (hclasses ▸ hresolved.defined.linked) hemitted
  refine ⟨a.layout.size, classes, texts, ids, before, after, hheader, hclasses ▸ hperm, hcode, horder, ?_, hvtables,
    hwritten.arraysHave_eight, fun hclass => ⟨fun harrays => ?_, fun h => h ▸ hwritten.arraysHave_eight⟩⟩
  · rw [← hlines, heq, Listing.prepend]
  · obtain ⟨c, hc, hclass⟩ := hclass
    refine (hvtables c hc hclass).header_eq hlabels (fun id => ?_) hwritten harrays
    rw [hgrows.vtable]
    exact vtable_ne_metadata hresolved (hfilled c hc hclass) id

theorem forest_arrays_found :
    (({} : Session).compile forest ByteArray.empty "Main").failure = none ∧
      ∃ header, (({} : Session).compile forest ByteArray.empty "Main").state.arrayHeaderSize = .ok header ∧
        (({} : Session).compile forest ByteArray.empty "Main").state.ArraysHave forest header := by
  obtain ⟨haccepted, hclass, hsize⟩ : (({} : Session).compile forest ByteArray.empty "Main").failure = none ∧
      (∃ c ∈ (({} : Session).compile forest ByteArray.empty "Main").state.classes.order, ¬ c.isInterface) ∧
      (({} : Session).compile forest ByteArray.empty "Main").state.arrayHeaderSize = .ok 8 := by decide +kernel
  obtain ⟨header, classes, _, _, _, _, hheader, hperm, -, -, -, -, -, hagrees⟩ :=
    array_format_agrees_iff rfl haccepted
  obtain rfl : 8 = header := Except.ok.inj (hsize.symm.trans hheader)
  obtain ⟨c, hc, hclass⟩ := hclass
  exact ⟨haccepted, 8, hheader, (hagrees ⟨c, hperm.mem_iff.2 hc, hclass⟩).2 rfl⟩

/-- A program that asks for the length of a string whose characters are in an array with a lock. -/
def roomy : Loader where
  load
    | "java/lang/Object" => .ok (classFile 0x0001 "java/lang/Object" none [⟨⟨0⟩, "vtable", "I"⟩] [])
    | "java/lang/Array" => .ok (classFile 0x0001 "java/lang/Array" (some "java/lang/Object")
        [⟨⟨0⟩, "lock", "I"⟩, ⟨⟨0⟩, "length", "I"⟩] [])
    | "java/lang/String" =>
      .ok (classFile 0x0001 "java/lang/String" (some "java/lang/Object") [⟨⟨0⟩, "value", "[C"⟩] [])
    | "Main" => .ok (classFile 0x0001 "Main" (some "java/lang/Object") []
        [⟨⟨0x0009⟩, "size", "()I", some
            { maxStack := 1, maxLocals := 0, handlers := []
              instructions :=
                [{ offset := 1, opcode := .ldc, constant := some ⟨1, .string [104, 105]⟩ },
                  { offset := 3, opcode := .getfield, constant := some ⟨2, .member 9 "java/lang/String" "value" "[C"⟩ },
                  { offset := 6, opcode := .arraylength }, { offset := 7, opcode := .returnValue .int }] }⟩])
    | name => .error (Cause.classNotFound name : Failure)
  limit := 4

/-- There the code reads the length of an array at offset 8, where the data of the string has its two characters. -/
theorem roomy_length_misread :
    (({} : Session).compile roomy ByteArray.empty "Main").failure = none ∧
      (({} : Session).compile roomy ByteArray.empty "Main").state.arrayHeaderSize = .ok 12 ∧
      Instr.load .lw .t0 8 .t1 ∈ codeOf (({} : Session).compile roomy ByteArray.empty "Main").lines ∧
      (({} : Session).compile roomy ByteArray.empty "Main").state.heap.get? 26 =
        some (.primitiveArray .char [104, 105]) ∧
      (assemble? 0 ((({} : Session).compile roomy ByteArray.empty "Main").state.objectText roomy 26)).map (·.drop 8) =
        some (numberData 2 104 ++ numberData 2 105) ∧
      ¬ (({} : Session).compile roomy ByteArray.empty "Main").state.ArraysHave roomy 12 := by
  obtain ⟨haccepted, hheader, hcode, hget, hlabel, hbytes⟩ :
      (({} : Session).compile roomy ByteArray.empty "Main").failure = none ∧
      (({} : Session).compile roomy ByteArray.empty "Main").state.arrayHeaderSize = .ok 12 ∧
      Instr.load .lw .t0 8 .t1 ∈ codeOf (({} : Session).compile roomy ByteArray.empty "Main").lines ∧
      (({} : Session).compile roomy ByteArray.empty "Main").state.heap.get? 26 =
        some (.primitiveArray .char [104, 105]) ∧
      .object 26 ∈ (({} : Session).compile roomy ByteArray.empty "Main").state.labels.order.toList ∧
      (assemble? 0 ((({} : Session).compile roomy ByteArray.empty "Main").state.objectText roomy 26)).map (·.drop 8) =
        some (numberData 2 104 ++ numberData 2 105) := by decide +kernel
  refine ⟨haccepted, hheader, hcode, hget, hbytes, fun harrays => ?_⟩
  obtain ⟨_, _, bytes, hcells, hread, hformat⟩ := harrays 26 _ hlabel hget trivial 0
  cases hcells
  obtain ⟨offset, hoffset, hstand⟩ := hformat.length
  obtain rfl : offset = 8 := by omega
  rw [hread, Option.map_some, Option.some.injEq] at hbytes
  rw [hbytes] at hstand
  exact absurd hstand (by decide)

end Session

end JvmAot
