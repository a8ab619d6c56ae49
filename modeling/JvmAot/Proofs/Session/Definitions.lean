import JvmAot.Proofs.ClassFile.Offsets
import JvmAot.Proofs.Session.References
import JvmAot.Proofs.Symbol.Mangling

/-! # Definitions of a program

The end of a symbol shows what it stands for (`Symbol.role`), so the symbols that a program defines can clash only
between two methods or between two vtables (`nodup_definitions_iff`). -/

namespace JvmAot

namespace Symbol

/-! ### How symbols end -/

/-- What a defined symbol stands for. -/
inductive Role where
  | method | branch | finish | vtable | pool | object | heap
  deriving DecidableEq

/-- What a symbol stands for, from its last character and, for numbers, from whether there is an underscore. -/
def role (x : String) : Role :=
  match x.toList.getLast? with
  | some 'n' => .finish
  | some 'e' => .vtable
  | some 's' => .pool
  | some 'p' => .heap
  | some c => if c.isDigit then if '_' ∈ x.toList then .branch else .object else .method
  | none => .method

theorem role_returnLabel (method : String) : role (returnLabel method) = .finish := by
  simp [role, returnLabel]

theorem role_ofVtable (name : String) : role (ofVtable name) = .vtable := by
  simp [role, ofVtable]

theorem role_of_isDigit {x : String} {c : Char} (hlast : x.toList.getLast? = some c) (hc : c.isDigit) :
    role x = if '_' ∈ x.toList then .branch else .object := by
  unfold role
  rw [hlast]
  split <;> simp_all

/-- A number ends in a digit and holds no underscore. -/
theorem getLast?_toString (n : Nat) :
    ∃ c, (toString n).toList.getLast? = some c ∧ c.isDigit ∧ '_' ∉ (toString n).toList := by
  have hdigits := areDigits_toString n
  simp only [areDigits, Bool.and_eq_true, Bool.not_eq_true', List.isEmpty_eq_false_iff, List.all_eq_true] at hdigits
  refine ⟨_, List.getLast?_eq_some_getLast hdigits.1, hdigits.2 _ (List.getLast_mem _), fun hmem => ?_⟩
  exact absurd (hdigits.2 _ hmem) (by decide)

theorem role_branchLabel (method : String) (i : Nat) : role (branchLabel method i) = .branch := by
  obtain ⟨c, hlast, hc, -⟩ := getLast?_toString i
  rw [role_of_isDigit (c := c) _ hc, if_pos]
  · simp [branchLabel]
  · rw [branchLabel, String.toList_append, List.getLast?_append, hlast]
    rfl

theorem role_label (n : Nat) : role (LabelTable.label n) = .object := by
  obtain ⟨c, hlast, hc, hnone⟩ := getLast?_toString n
  rw [role_of_isDigit (c := c) _ hc, if_neg]
  · rw [LabelTable.label, String.toList_append, List.mem_append, not_or]
    exact ⟨by decide, hnone⟩
  · rw [LabelTable.label, String.toList_append, List.getLast?_append, hlast]
    rfl

theorem getLast?_typeChars {t : FieldType} (h : t.IsValid) :
    ∃ c ∈ ['Z', 'B', 'S', 'C', 'I', 'F', 'J', 'D', '_'], (typeChars t).getLast? = some c := by
  rw [typeChars_eq h, List.getLast?_append]
  by_cases href : t.base = .reference
  · rw [show t.className? = some t.className from if_pos href]
    exact ⟨'_', by simp, by simp [List.getLast?_cons]⟩
  · rw [show t.className? = none from if_neg href]
    refine ⟨t.base.letter, ?_, by simp⟩
    cases hbase : t.base with
    | reference => exact absurd hbase href
    | other letter => exact absurd hbase (h.base_ne_other letter)
    | _ => simp [BaseType.letter]

end Symbol

/-- A symbol of a method ends like its descriptor, in a letter of a type or in an underscore. -/
theorem MethodId.role_symbol {m : MethodId} {t : MethodType} (h : MethodType.parse m.descriptor = .ok t) :
    Symbol.role m.symbol = .method := by
  obtain ⟨hdescriptor, -, hvalid⟩ := MethodType.eq_toText_of_parse h
  obtain ⟨c, hc, hlast⟩ : ∃ c ∈ ['V', 'Z', 'B', 'S', 'C', 'I', 'F', 'J', 'D', '_'],
      ((MethodType.resultChars t.result).flatMap Symbol.mangleChar).getLast? = some c := by
    cases hresult : t.result with
    | none => exact ⟨'V', by simp, rfl⟩
    | some r =>
      obtain ⟨c, hc, hlast⟩ := Symbol.getLast?_typeChars (hvalid r hresult)
      exact ⟨c, List.mem_cons_of_mem _ hc, hlast⟩
  have hsymbol : m.symbol.toList.getLast? = some c := by
    rw [toList_symbol, hdescriptor, Symbol.chars_toText]
    simp [List.getLast?_append, List.getLast?_cons, hlast]
  rw [Symbol.role, hsymbol]
  simp only [List.mem_cons, List.not_mem_nil, or_false] at hc
  rcases hc with rfl | rfl | rfl | rfl | rfl | rfl | rfl | rfl | rfl | rfl <;> rfl

/-! ### Labels of methods -/

namespace Symbol

/-- The last underscore of a branch label stands in front of its number. -/
theorem branchLabel_inj_method {method method' : String} {i j : Nat}
    (h : branchLabel method i = branchLabel method' j) : method = method' := by
  obtain ⟨-, -, -, hi⟩ := getLast?_toString i
  obtain ⟨-, -, -, hj⟩ := getLast?_toString j
  have h : method.toList ++ '_' :: (toString i).toList = method'.toList ++ '_' :: (toString j).toList := by
    simpa [branchLabel] using congrArg String.toList h
  rcases List.append_eq_append_iff.1 h with ⟨x, hx, hrest⟩ | ⟨x, hx, hrest⟩
  · cases x with
    | nil => exact String.toList_inj.1 (by simpa using hx.symm)
    | cons c x => exact absurd ((List.cons.inj hrest).2 ▸ by simp : '_' ∈ (toString i).toList) hi
  · cases x with
    | nil => exact String.toList_inj.1 (by simpa using hx)
    | cons c x => exact absurd ((List.cons.inj hrest).2 ▸ by simp : '_' ∈ (toString j).toList) hj

theorem returnLabel_inj {method method' : String} (h : returnLabel method = returnLabel method') : method = method' :=
  (String.append_left_inj _).1 h

end Symbol

/-- The labels of a method with the given body. -/
def MethodId.labels (m : MethodId) (code : Code) : List String :=
  m.symbol :: ((code.instructions.map Instruction.offset).filterMap
    (⟨m.symbol, branchTargets code.instructions, 0⟩ : Scope).label? ++ [Symbol.returnLabel m.symbol])

/-- The methods of a class that have bodies to compile. -/
def ClassInfo.translated (c : ClassInfo) : List (MethodId × Code) :=
  c.methods.flatMap fun m => m.decl.body?.toList.map fun code => (⟨c.name, m.decl.name, m.decl.descriptor⟩, code)

theorem ClassInfo.ownLabels_eq (c : ClassInfo) : c.ownLabels = c.translated.flatMap fun p => p.1.labels p.2 := by
  rw [ownLabels, translated, List.flatMap_assoc]
  refine List.flatMap_congr fun m _ => ?_
  rw [MethodDecl.ownLabels]
  cases m.decl.body? with
  | none => rfl
  | some => exact (List.append_nil _).symm

namespace MethodId
variable {m m' : MethodId} {code code' : Code} {x : String}

/-- A label of a method and what it stands for. -/
theorem mem_labels (h : x ∈ m.labels code) :
    x = m.symbol ∨ (∃ i, x = Symbol.branchLabel m.symbol i) ∨ x = Symbol.returnLabel m.symbol := by
  rcases List.mem_cons.1 h with rfl | h
  · exact .inl rfl
  · rcases List.mem_append.1 h with h | h
    · obtain ⟨t, -, ht⟩ := List.mem_filterMap.1 h
      obtain ⟨i, -, rfl⟩ := Option.map_eq_some_iff.1 ht
      exact .inr (.inl ⟨i, rfl⟩)
    · exact .inr (.inr (List.mem_singleton.1 h))

theorem role_of_mem_labels {t : MethodType} (ht : MethodType.parse m.descriptor = .ok t) (h : x ∈ m.labels code) :
    Symbol.role x ∈ [.method, .branch, .finish] := by
  rcases mem_labels h with rfl | ⟨i, rfl⟩ | rfl
  · simp [role_symbol ht]
  · simp [Symbol.role_branchLabel]
  · simp [Symbol.role_returnLabel]

/-- Methods share a label only if they share their symbol. -/
theorem labels_disjoint_iff {t t' : MethodType} (ht : MethodType.parse m.descriptor = .ok t)
    (ht' : MethodType.parse m'.descriptor = .ok t') :
    List.Disjoint (m.labels code) (m'.labels code') ↔ m.symbol ≠ m'.symbol := by
  constructor
  · intro h heq
    have hx : m.symbol ∈ m'.labels code' := by
      rw [heq]
      exact List.mem_cons_self ..
    exact h (List.mem_cons_self ..) hx
  · intro hne x hx hx'
    rcases mem_labels hx with rfl | ⟨i, rfl⟩ | rfl <;> rcases mem_labels hx' with heq | ⟨j, heq⟩ | heq
    · exact hne heq
    · exact absurd (congrArg Symbol.role heq) (by simp [role_symbol ht, Symbol.role_branchLabel])
    · exact absurd (congrArg Symbol.role heq) (by simp [role_symbol ht, Symbol.role_returnLabel])
    · exact absurd (congrArg Symbol.role heq) (by simp [role_symbol ht', Symbol.role_branchLabel])
    · exact hne (Symbol.branchLabel_inj_method heq)
    · exact absurd (congrArg Symbol.role heq) (by simp [Symbol.role_branchLabel, Symbol.role_returnLabel])
    · exact absurd (congrArg Symbol.role heq) (by simp [role_symbol ht', Symbol.role_returnLabel])
    · exact absurd (congrArg Symbol.role heq) (by simp [Symbol.role_branchLabel, Symbol.role_returnLabel])
    · exact hne (Symbol.returnLabel_inj heq)

/-- Labels of methods clash exactly if the symbols do. -/
theorem nodup_flatMap_labels {methods : List (MethodId × Code)}
    (h : ∀ p ∈ methods, (∃ t, MethodType.parse p.1.descriptor = .ok t) ∧ p.2.Increasing) :
    (methods.flatMap fun p => p.1.labels p.2).Nodup ↔ (methods.map fun p => p.1.symbol).Nodup := by
  have hself : ∀ p ∈ methods, (p.1.labels p.2).Nodup := by
    intro p hp
    have hoffsets : (p.2.instructions.map (·.offset)).Nodup :=
      List.pairwise_map.2 ((h p hp).2.imp Int.ne_of_lt)
    exact Scope.nodup_labels ⟨p.1.symbol, branchTargets p.2.instructions, 0⟩ hoffsets
  rw [List.nodup_flatMap, List.nodup_iff_pairwise_ne, List.pairwise_map, and_iff_right hself]
  refine List.Pairwise.iff_of_mem fun {p q} hp hq => ?_
  obtain ⟨⟨t, ht⟩, -⟩ := h p hp
  obtain ⟨⟨t', ht'⟩, -⟩ := h q hq
  exact labels_disjoint_iff ht ht'

end MethodId

/-! ### Programs -/

theorem nodup_append_of_role {xs ys : List String} (roles : List Symbol.Role) (hx : ∀ x ∈ xs, Symbol.role x ∈ roles)
    (hy : ∀ y ∈ ys, Symbol.role y ∉ roles) : (xs ++ ys).Nodup ↔ xs.Nodup ∧ ys.Nodup := by
  rw [List.nodup_append]
  refine ⟨fun h => ⟨h.1, h.2.1⟩, fun h => ⟨h.1, h.2, fun x hxs y hys heq => ?_⟩⟩
  exact hy y hys (heq ▸ hx x hxs)

/-- Whether all classes come from class files. -/
def Loader.ReadsFiles (loader : Loader) : Prop :=
  ∀ name file, loader.load name = .ok file → ∃ bytes, ClassFile.decode bytes = .ok file

theorem Loader.readsFiles_ofTable (files : List (String × ByteArray)) : (ofTable files).ReadsFiles := by
  intro name file h
  unfold ofTable at h
  dsimp only at h
  split at h
  · exact ⟨_, h⟩
  · cases h

namespace Session

variable {loader : Loader} {s : Session}

/-- The methods of a session that have bodies to compile. -/
def translated (s : Session) : List (MethodId × Code) :=
  s.classes.order.flatMap ClassInfo.translated

/-- The vtable symbols of a session. -/
def vtableSymbols (s : Session) : List String :=
  (s.classes.order.filter fun c => !c.isInterface).map fun c => Symbol.ofVtable c.name

theorem mem_translated {p : MethodId × Code} : p ∈ s.translated ↔ ∃ c ∈ s.classes.latest, ∃ m ∈ c.methods,
    m.decl.body? = some p.2 ∧ p.1 = ⟨c.name, m.decl.name, m.decl.descriptor⟩ := by
  obtain ⟨id, code⟩ := p
  simp only [translated, ClassInfo.translated, List.mem_flatMap, List.mem_map, ClassTable.mem_order, Option.mem_toList]
  constructor
  · rintro ⟨c, hc, m, hm, code, hcode, heq⟩
    cases heq
    exact ⟨c, hc, m, hm, hcode, rfl⟩
  · rintro ⟨c, hc, m, hm, hcode, rfl⟩
    exact ⟨c, hc, m, hm, code, hcode, rfl⟩

/-- Methods that are compiled have descriptors that can be read, and instructions one after the other. -/
theorem translated_of_linked (hfiles : loader.ReadsFiles) (hs : s.classes.Linked loader) {p : MethodId × Code}
    (hp : p ∈ s.translated) : (∃ t, MethodType.parse p.1.descriptor = .ok t) ∧ p.2.Increasing := by
  obtain ⟨id, code⟩ := p
  obtain ⟨c, hc, m, hm, hbody, rfl⟩ := mem_translated.1 hp
  obtain ⟨file, hload, d, hd, hdeclared⟩ := hs.declared hc hm
  obtain ⟨bytes, hdecode⟩ := hfiles _ _ hload
  have hcode : d.code = some code := by
    rw [← hdeclared.decl]
    unfold MethodDecl.body? at hbody
    split at hbody
    · cases hbody
    · exact hbody
  refine ⟨⟨m.type, ?_⟩, ClassFile.increasing_of_decode hdecode d hd code hcode⟩
  rw [hdeclared.decl]
  exact hdeclared.type

/-- What an accepted program defines: the labels of its methods, and the symbols of its data. -/
theorem definitions_compile {prologue : ByteArray} {entry : String}
    (hf : (({} : Session).compile loader prologue entry).failure = none) :
    ∃ s labels, s = (({} : Session).compile loader prologue entry).state ∧ s.classes.Linked loader ∧
      (definitions (({} : Session).compile loader prologue entry).lines).Perm
        ((s.translated.flatMap fun p => p.1.labels p.2) ++ (Symbol.staticFields :: s.vtableSymbols ++
          (List.range labels).map LabelTable.label ++ [Symbol.dynamicHeap])) := by
  obtain ⟨classes, s, s', lines, hsteps, htexts, hclasses, hnames, hdata, heq⟩ := compile_of_success hf
  obtain ⟨hlinked, hpopulated⟩ := htexts.populated (populated_of_steps hsteps)
  have hclosed : s'.close.Populated := ⟨hpopulated.holds, hpopulated.tabled, hpopulated.vtables, hpopulated.root⟩
  obtain ⟨heap, labels, hstate, -, hdefs, -⟩ := dataLines_of_success hclosed hdata
  rw [heq]
  simp only [Listing.prepend, hstate]
  refine ⟨_, labels.size, rfl, hlinked, ?_⟩
  have hperm := perm_order hlinked.ordered hclasses hnames
  have hlabels : (s'.translated.flatMap fun p => p.1.labels p.2) = s'.classes.order.flatMap ClassInfo.ownLabels := by
    rw [translated, List.flatMap_assoc]
    exact List.flatMap_congr fun c _ => (c.ownLabels_eq).symm
  rw [List.cons_append, definitions_cons, definitions_append, htexts.definitions_eq, hdefs]
  simp only [Line.definition?, Option.toList_none, List.nil_append]
  have hcode := hperm.flatMap_right ClassInfo.ownLabels
  rw [← hlabels] at hcode
  exact hcode.append_right _

/-- The symbols of an accepted program clash exactly if two methods that were compiled do, or two vtables. -/
theorem nodup_definitions_iff (hfiles : loader.ReadsFiles) {prologue : ByteArray} {entry : String}
    (hf : (({} : Session).compile loader prologue entry).failure = none) :
    (definitions (({} : Session).compile loader prologue entry).lines).Nodup ↔
      ((({} : Session).compile loader prologue entry).state.translated.map fun p => p.1.symbol).Nodup ∧
      (({} : Session).compile loader prologue entry).state.vtableSymbols.Nodup := by
  obtain ⟨s, labels, hs, hlinked, hperm⟩ := definitions_compile hf
  have hmethods := fun p hp => translated_of_linked (s := s) hfiles hlinked (p := p) hp
  have hcode : ∀ x ∈ s.translated.flatMap fun p => p.1.labels p.2, Symbol.role x ∈ [.method, .branch, .finish] := by
    intro x hx
    obtain ⟨p, hp, hx⟩ := List.mem_flatMap.1 hx
    obtain ⟨⟨t, ht⟩, -⟩ := hmethods p hp
    exact MethodId.role_of_mem_labels ht hx
  have hvtables : ∀ x ∈ s.vtableSymbols, Symbol.role x = .vtable := by
    intro x hx
    obtain ⟨c, -, rfl⟩ := List.mem_map.1 hx
    exact Symbol.role_ofVtable _
  have hobjects : ∀ x ∈ (List.range labels).map LabelTable.label, Symbol.role x = .object := by
    intro x hx
    obtain ⟨n, -, rfl⟩ := List.mem_map.1 hx
    exact Symbol.role_label n
  have hnumbers : ((List.range labels).map LabelTable.label).Nodup :=
    List.nodup_range.map fun _ _ => LabelTable.label_inj
  have hpool : Symbol.role Symbol.staticFields = .pool := by decide
  have hheap : Symbol.role Symbol.dynamicHeap = .heap := by decide
  have hdata : (Symbol.staticFields :: s.vtableSymbols ++ (List.range labels).map LabelTable.label ++
      [Symbol.dynamicHeap]).Nodup ↔ s.vtableSymbols.Nodup := by
    rw [List.append_assoc, List.cons_append, ← List.singleton_append, nodup_append_of_role [.pool],
      nodup_append_of_role [.vtable], nodup_append_of_role [.object]]
    · simp [hnumbers]
    all_goals simp only [List.forall_mem_append, List.mem_singleton, forall_eq]
    · exact hobjects
    · simp [hheap]
    · exact hvtables
    · exact ⟨fun x hx => by simp [hobjects x hx], by simp [hheap]⟩
    · exact hpool
    · exact ⟨fun x hx => by simp [hvtables x hx], fun x hx => by simp [hobjects x hx], by simp [hheap]⟩
  rw [← hs, hperm.nodup_iff, nodup_append_of_role _ hcode, MethodId.nodup_flatMap_labels hmethods, hdata]
  simp only [List.forall_mem_append, List.forall_mem_cons]
  exact ⟨⟨⟨by simp [hpool], fun x hx => by simp [hvtables x hx]⟩, fun x hx => by simp [hobjects x hx]⟩,
    by simp [hheap], nofun⟩

/-- Classes that declare no method twice make no method twice. -/
theorem nodup_translated (hs : s.classes.Linked loader)
    (honce : ∀ c ∈ s.classes.order, (c.methods.map fun m => (m.decl.name, m.decl.descriptor)).Nodup) :
    (s.translated.map Prod.fst).Nodup := by
  rw [translated, List.map_flatMap, List.nodup_flatMap]
  have hnames := List.pairwise_map.1 hs.ordered.nodup_order
  have hmem {c : ClassInfo} {id : MethodId} (h : id ∈ c.translated.map Prod.fst) : id.className = c.name := by
    simp only [ClassInfo.translated, List.map_flatMap, List.map_map, List.mem_flatMap, List.mem_map] at h
    obtain ⟨m, -, code, -, rfl⟩ := h
    rfl
  refine ⟨fun c hc => ?_, hnames.imp fun hne id hid hid' => hne ((hmem hid).symm.trans (hmem hid'))⟩
  rw [ClassInfo.translated, List.map_flatMap, List.nodup_flatMap]
  have hdistinct := List.pairwise_map.1 (honce c hc)
  refine ⟨fun m _ => by cases m.decl.body? <;> simp, hdistinct.imp fun {m m'} hne id hid hid' => ?_⟩
  simp only [List.map_map, List.mem_map] at hid hid'
  obtain ⟨code, -, rfl⟩ := hid
  obtain ⟨code', -, heq⟩ := hid'
  simp only [Function.comp_apply, MethodId.mk.injEq, true_and] at heq
  exact hne (by rw [heq.1, heq.2])

/-- Names that are separate make vtable symbols that are. -/
theorem nodup_vtableSymbols (hs : s.classes.Linked loader) {classes : List String} (hclasses : Symbol.Separate classes)
    (hmem : ∀ c ∈ s.classes.order, c.name ∈ classes) : s.vtableSymbols.Nodup := by
  rw [vtableSymbols, List.nodup_iff_pairwise_ne, List.pairwise_map]
  refine ((List.pairwise_map.1 hs.ordered.nodup_order).filter _).imp_of_mem fun {c d} hc hd hne heq => hne ?_
  refine hclasses _ (hmem c (List.mem_filter.1 hc).1) _ (hmem d (List.mem_filter.1 hd).1) ?_
  simp only [Symbol.ofVtable_inj.1 heq]
  exact List.prefix_refl _

/-- Symbols tell methods apart whose classes and names are separate, and vtables whose classes have plain names. A
program defines a symbol twice exactly if two of its methods or two of its vtables share one, and so not at all if
its names are separate and no class declares a method twice. -/
theorem definitions_apart :
    (∀ classes methods, Symbol.Separate classes → Symbol.Separate methods →
      Set.InjOn MethodId.symbol {m | m.Within classes methods}) ∧
    (∀ names, (∀ a ∈ names, Symbol.IsPlain a) →
      (∀ a ∈ names, ∀ b ∈ names, ¬ (a.toList ++ ['/']) <+: b.toList) → Symbol.Separate names) ∧
    (∀ names, (∀ a ∈ names, Symbol.IsPlainMethod a) → Symbol.Separate names) ∧
    (∀ a b, Symbol.IsPlain a → Symbol.IsPlain b → Symbol.ofVtable a = Symbol.ofVtable b → a = b) ∧
    ∀ (loader : Loader) (prologue : ByteArray) (entry : String), loader.ReadsFiles →
      (({} : Session).compile loader prologue entry).failure = none →
      ((definitions (({} : Session).compile loader prologue entry).lines).Nodup ↔
        ((({} : Session).compile loader prologue entry).state.translated.map fun p => p.1.symbol).Nodup ∧
        (({} : Session).compile loader prologue entry).state.vtableSymbols.Nodup) ∧
      ∀ classes methods, Symbol.Separate classes → Symbol.Separate methods →
        (∀ c ∈ (({} : Session).compile loader prologue entry).state.classes.order, c.name ∈ classes) →
        (∀ p ∈ (({} : Session).compile loader prologue entry).state.translated, p.1.Within classes methods) →
        (∀ c ∈ (({} : Session).compile loader prologue entry).state.classes.order,
          (c.methods.map fun m => (m.decl.name, m.decl.descriptor)).Nodup) →
        (definitions (({} : Session).compile loader prologue entry).lines).Nodup := by
  refine ⟨fun _ _ => MethodId.symbol_injOn, fun _ => Symbol.separate_of_isPlain,
    fun _ => Symbol.separate_of_isPlainMethod, fun a b ha hb h => ha.chars_inj hb (Symbol.ofVtable_inj.1 h),
    fun loader prologue entry hfiles hf => ?_⟩
  have hiff := nodup_definitions_iff hfiles hf
  refine ⟨hiff, fun classes methods hclasses hmethods hnames hwithin honce => ?_⟩
  obtain ⟨s, labels, rfl, hlinked, -⟩ := definitions_compile hf
  refine hiff.2 ⟨?_, nodup_vtableSymbols hlinked hclasses hnames⟩
  have hids := nodup_translated hlinked honce
  change (List.map (MethodId.symbol ∘ Prod.fst) _).Nodup
  rw [← List.map_map]
  refine hids.map_on fun a ha b hb => ?_
  obtain ⟨p, hp, rfl⟩ := List.mem_map.1 ha
  obtain ⟨q, hq, rfl⟩ := List.mem_map.1 hb
  exact MethodId.symbol_injOn hclasses hmethods (hwithin p hp) (hwithin q hq)

/-- The files of the classes that every program needs. -/
def runtimeFiles : List (String × ByteArray) :=
  [("java/lang/Object",
      ⟨⟨[202, 254, 186, 190, 0, 0, 0, 52, 0, 5, 1, 0, 16, 106, 97, 118, 97, 47, 108, 97, 110, 103, 47, 79, 98,
        106, 101, 99, 116, 7, 0, 1, 1, 0, 1, 118, 1, 0, 1, 73, 0, 1, 0, 2, 0, 0, 0, 0, 0, 1, 0, 0, 0, 3, 0, 4,
        0, 0, 0, 0, 0, 0]⟩⟩),
    ("java/lang/Array",
      ⟨⟨[202, 254, 186, 190, 0, 0, 0, 52, 0, 7, 1, 0, 15, 106, 97, 118, 97, 47, 108, 97, 110, 103, 47, 65, 114,
        114, 97, 121, 7, 0, 1, 1, 0, 16, 106, 97, 118, 97, 47, 108, 97, 110, 103, 47, 79, 98, 106, 101, 99, 116,
        7, 0, 3, 1, 0, 1, 110, 1, 0, 1, 73, 0, 1, 0, 2, 0, 4, 0, 0, 0, 1, 0, 0, 0, 5, 0, 6, 0, 0, 0, 0, 0, 0]⟩⟩),
    ("java/lang/String",
      ⟨⟨[202, 254, 186, 190, 0, 0, 0, 52, 0, 7, 1, 0, 16, 106, 97, 118, 97, 47, 108, 97, 110, 103, 47, 83, 116,
        114, 105, 110, 103, 7, 0, 1, 1, 0, 16, 106, 97, 118, 97, 47, 108, 97, 110, 103, 47, 79, 98, 106, 101,
        99, 116, 7, 0, 3, 1, 0, 1, 99, 1, 0, 2, 91, 67, 0, 1, 0, 2, 0, 4, 0, 0, 0, 1, 0, 0, 0, 5, 0, 6, 0, 0, 0,
        0, 0, 0]⟩⟩)]

/-- A program with the methods `f(I)V`, which loops, and `f(Lapp/Main;)V`. -/
def overloads : Loader :=
  .ofTable (("app/Main",
      ⟨⟨[202, 254, 186, 190, 0, 0, 0, 52, 0, 9, 1, 0, 8, 97, 112, 112, 47, 77, 97, 105, 110, 7, 0, 1, 1, 0, 16,
        106, 97, 118, 97, 47, 108, 97, 110, 103, 47, 79, 98, 106, 101, 99, 116, 7, 0, 3, 1, 0, 1, 102, 1, 0, 4,
        40, 73, 41, 86, 1, 0, 4, 67, 111, 100, 101, 1, 0, 13, 40, 76, 97, 112, 112, 47, 77, 97, 105, 110, 59,
        41, 86, 0, 1, 0, 2, 0, 4, 0, 0, 0, 0, 0, 2, 0, 9, 0, 5, 0, 6, 0, 1, 0, 7, 0, 0, 0, 17, 0, 1, 0, 1, 0, 0,
        0, 5, 26, 154, 255, 255, 177, 0, 0, 0, 0, 0, 9, 0, 5, 0, 8, 0, 1, 0, 7, 0, 0, 0, 13, 0, 0, 0, 2, 0, 0,
        0, 1, 177, 0, 0, 0, 0, 0, 0]⟩⟩) :: runtimeFiles)

/-- A program with the methods `f(La/Lb;)V` and `f(La;Lb;)V`. -/
def clashes : Loader :=
  .ofTable (("app/Main",
      ⟨⟨[202, 254, 186, 190, 0, 0, 0, 52, 0, 9, 1, 0, 8, 97, 112, 112, 47, 77, 97, 105, 110, 7, 0, 1, 1, 0, 16,
        106, 97, 118, 97, 47, 108, 97, 110, 103, 47, 79, 98, 106, 101, 99, 116, 7, 0, 3, 1, 0, 1, 102, 1, 0, 9,
        40, 76, 97, 47, 76, 98, 59, 41, 86, 1, 0, 4, 67, 111, 100, 101, 1, 0, 9, 40, 76, 97, 59, 76, 98, 59, 41,
        86, 0, 1, 0, 2, 0, 4, 0, 0, 0, 0, 0, 2, 0, 9, 0, 5, 0, 6, 0, 1, 0, 7, 0, 0, 0, 13, 0, 0, 0, 2, 0, 0, 0,
        1, 177, 0, 0, 0, 0, 0, 9, 0, 5, 0, 8, 0, 1, 0, 7, 0, 0, 0, 13, 0, 0, 0, 2, 0, 0, 0, 1, 177, 0, 0, 0, 0,
        0, 0]⟩⟩) :: runtimeFiles)

/-- The program with two overloads, compiled. -/
def overloadsText : Listing Session :=
  ({} : Session).compile overloads ByteArray.empty "app/Main"

/-- The program with two methods of one symbol, compiled. -/
def clashesText : Listing Session :=
  ({} : Session).compile clashes ByteArray.empty "app/Main"

/-- Two classes, two methods of one class, and a program with two such methods. -/
theorem definitions_clash :
    Symbol.ofMethod "a/b" "f" "()V" = Symbol.ofMethod "a_b" "f" "()V" ∧
      Symbol.ofMethod "a" "f" "(La/Lb;)V" = Symbol.ofMethod "a" "f" "(La;Lb;)V" ∧
      Symbol.ofVtable "a/b" = Symbol.ofVtable "a_b" ∧
      clashes.ReadsFiles ∧ clashesText.failure = none ∧
      (∀ c ∈ clashesText.state.classes.order, (c.methods.map fun m => (m.decl.name, m.decl.descriptor)).Nodup) ∧
      ¬ (definitions clashesText.lines).Nodup := by
  have hfiles : clashes.ReadsFiles := Loader.readsFiles_ofTable _
  obtain ⟨haccepted, honce, hshared⟩ : clashesText.failure = none ∧
      (∀ c ∈ clashesText.state.classes.order, (c.methods.map fun m => (m.decl.name, m.decl.descriptor)).Nodup) ∧
      ¬ (clashesText.state.translated.map fun p => p.1.symbol).Nodup := by decide +kernel
  have hclass : Symbol.ofClass "a/b" = Symbol.ofClass "a_b" := by
    rw [Symbol.ofClass, Symbol.ofClass, Symbol.mangle_slashed, Symbol.mangle_slashed]
    decide
  refine ⟨?_, by decide +kernel, ?_, hfiles, haccepted, honce, fun h => hshared ?_⟩
  · rw [Symbol.ofMethod, hclass, ← Symbol.ofMethod]
  · rw [Symbol.ofVtable, hclass, ← Symbol.ofVtable]
  exact ((nodup_definitions_iff hfiles haccepted).1 h).1

theorem overloads_apart :
    Symbol.Separate ["java/lang/Object", "java/lang/Array", "java/lang/String", "app/Main"] ∧
      overloads.ReadsFiles ∧ overloadsText.failure = none ∧
      overloadsText.state.translated.map (fun p => p.1.descriptor) = ["(I)V", "(Lapp/Main;)V"] ∧
      (definitions overloadsText.lines).Nodup := by
  have hseparate : Symbol.Separate ["java/lang/Object", "java/lang/Array", "java/lang/String", "app/Main"] :=
    definitions_apart.2.1 _ (by decide +kernel) (by decide +kernel)
  have hfiles : overloads.ReadsFiles := Loader.readsFiles_ofTable _
  obtain ⟨haccepted, hdescriptors, hnames, hwithin, honce⟩ : overloadsText.failure = none ∧
      overloadsText.state.translated.map (fun p => p.1.descriptor) = ["(I)V", "(Lapp/Main;)V"] ∧
      (∀ c ∈ overloadsText.state.classes.order,
        c.name ∈ ["java/lang/Object", "java/lang/Array", "java/lang/String", "app/Main"]) ∧
      (∀ p ∈ overloadsText.state.translated,
        p.1.Within ["java/lang/Object", "java/lang/Array", "java/lang/String", "app/Main"] ["f"]) ∧
      ∀ c ∈ overloadsText.state.classes.order,
        (c.methods.map fun m => (m.decl.name, m.decl.descriptor)).Nodup := by decide +kernel
  obtain ⟨-, -, -, -, hprograms⟩ := definitions_apart
  obtain ⟨-, happly⟩ := hprograms overloads ByteArray.empty "app/Main" hfiles haccepted
  exact ⟨hseparate, hfiles, haccepted, hdescriptors, happly _ ["f"] hseparate (by decide) hnames hwithin honce⟩

end Session

end JvmAot
