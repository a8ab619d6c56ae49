import JvmAot.Proofs.Lowering.Labels
import JvmAot.Proofs.Session.Dispatch
import Mathlib.Data.List.TakeWhile

/-! # The texts of a program

A compilation that succeeds writes the texts of some classes, one after the other (`Texts`), and then the data.
Each class of the final session is among them, and none is written twice (`compile_of_success`). What a text
defines depends on the class alone (`Texts.definitions_eq`). -/

namespace JvmAot

namespace Listing
variable {σ : Type} {t : Listing σ} {next : σ → Listing σ}

theorem andThen_of_success (h : (t.andThen next).failure = none) :
    t.failure = none ∧ (next t.state).failure = none ∧ t.andThen next = (next t.state).prepend t.lines := by
  unfold andThen at h ⊢
  split at h
  · rename_i heq
    rw [heq] at h
    cases h
  · rename_i heq
    exact ⟨heq, h, rfl⟩

theorem append_of_success {lines : List Line} (h : (t.append lines).failure = none) :
    t.failure = none ∧ t.append lines = { t with lines := t.lines ++ lines } := by
  unfold append at h ⊢
  split at h
  · rename_i heq
    rw [heq] at h
    cases h
  · rename_i heq
    exact ⟨heq, by rw [heq]⟩

end Listing

/-! ### Definitions -/

/-- The labels that a method of the class `className` defines. -/
def MethodDecl.ownLabels (className : String) (d : MethodDecl) : List String :=
  match d.body? with
  | none => []
  | some code =>
    Symbol.ofMethod className d.name d.descriptor ::
      ((code.instructions.map Instruction.offset).filterMap (d.bodyScope 0 className code).label? ++
        [Symbol.returnLabel (Symbol.ofMethod className d.name d.descriptor)])

/-- The labels that the methods of a class define. -/
def ClassInfo.ownLabels (c : ClassInfo) : List String :=
  c.methods.flatMap fun m => m.decl.ownLabels c.name

theorem MethodDecl.definitions_listing {σ : Type} {context : Context σ} {header : Int} {className : String}
    {d : MethodDecl} {state : σ} (hf : (d.listing context header className state).failure = none) :
    definitions (d.listing context header className state).lines = d.ownLabels className := by
  cases hbody : d.body? with
  | none => simp [listing, ownLabels, hbody]
  | some code =>
    cases htype : MethodType.parse d.descriptor with
    | error => simp [listing, hbody, htype] at hf
    | ok type =>
      rw [definitions_of_isCode (isCode_listing hbody htype hf), labels_listing hbody htype hf, ownLabels, hbody]
      rfl

namespace Session

variable {loader : Loader} {s s' : Session} {c : ClassInfo} {classes : List ClassInfo} {lines : List Line}

theorem definitions_methodsListing {header : Nat} {className : String} {methods : List MethodInfo}
    (hf : (s.methodsListing loader header className methods).failure = none) :
    definitions (s.methodsListing loader header className methods).lines =
      methods.flatMap fun m => m.decl.ownLabels className := by
  induction methods generalizing s with
  | nil => rfl
  | cons m rest ih =>
    obtain ⟨hfirst, hrest, heq⟩ := Listing.andThen_of_success hf
    rw [methodsListing, heq, Listing.prepend, definitions_append, MethodDecl.definitions_listing hfirst, ih hrest,
      List.flatMap_cons]

theorem classListing_of_success (hf : (s.classListing loader c).failure = none) :
    ∃ header, s.arrayHeaderSize = .ok header ∧ (s.methodsListing loader header c.name c.methods).failure = none ∧
      s.classListing loader c =
        { lines := .banner ("class " ++ ClassName.dotted c.name) ::
            (s.methodsListing loader header c.name c.methods).lines ++ [.blank],
          failure := none,
          state := (s.methodsListing loader header c.name c.methods).state.fillVtable c } := by
  unfold classListing at hf ⊢
  have hf := Option.map_eq_none_iff.1 hf
  split at hf
  · cases hf
  · rename_i header hheader
    obtain ⟨hmethods, -, heq⟩ := Listing.andThen_of_success hf
    refine ⟨header, hheader, hmethods, ?_⟩
    dsimp only
    rw [heq]
    rfl

theorem definitions_classListing (hf : (s.classListing loader c).failure = none) :
    definitions (s.classListing loader c).lines = c.ownLabels := by
  obtain ⟨header, -, hmethods, heq⟩ := classListing_of_success hf
  rw [heq]
  simp [definitions_methodsListing hmethods, Line.definition?, ClassInfo.ownLabels]

/-! ### The texts of classes -/

/-- The texts of some classes, written one after the other. -/
inductive Texts (loader : Loader) : List ClassInfo → Session → Session → List Line → Prop
  | nil {s : Session} : Texts loader [] s s []
  /-- Some classes are going to be compiled. -/
  | mark {s s' : Session} {classes : List ClassInfo} {lines : List Line} (names : List String)
      (h : Texts loader classes { s with compiled := names ++ s.compiled } s' lines) : Texts loader classes s s' lines
  | text {s s' : Session} {c : ClassInfo} {classes : List ClassInfo} {lines : List Line}
      (hc : c ∈ s.classes.latest) (hf : (s.classListing loader c).failure = none)
      (h : Texts loader classes (s.classListing loader c).state s' lines) :
      Texts loader (c :: classes) s s' ((s.classListing loader c).lines ++ lines)

namespace Texts

theorem append {s'' : Session} {more : List ClassInfo} {lines' : List Line} (h : Texts loader classes s s' lines)
    (h' : Texts loader more s' s'' lines') : Texts loader (classes ++ more) s s'' (lines ++ lines') := by
  induction h with
  | nil => exact h'
  | mark names _ ih => exact .mark names (ih h')
  | text hc hf _ ih =>
    rw [List.append_assoc]
    exact .text hc hf (ih h')

/-- What steps keep, and does not depend on the marks, holds after some texts too. -/
theorem keep {P : Session → Prop} (hstep : ∀ {s s'}, Step loader s s' → P s → P s')
    (hmark : ∀ {s} names, P s → P { s with compiled := names ++ s.compiled }) (h : Texts loader classes s s' lines)
    (hs : P s) : P s' := by
  induction h with
  | nil => exact hs
  | mark names _ ih => exact ih (hmark names hs)
  | text hc _ _ ih => exact ih ((steps_classListing hc).keep hstep hs)

theorem mem_classes (h : Texts loader classes s s' lines) (hc : c ∈ s.classes.latest) : c ∈ s'.classes.latest :=
  h.keep (P := fun s => c ∈ s.classes.latest) (fun hstep hc => hstep.latest_suffix.subset hc) (fun _ hc => hc) hc

theorem mem_classes_of_mem (h : Texts loader classes s s' lines) (hc : c ∈ classes) : c ∈ s'.classes.latest := by
  induction h with
  | nil => cases hc
  | mark _ _ ih => exact ih hc
  | text hmem _ h ih =>
    rcases List.mem_cons.1 hc with rfl | hc
    · exact h.mem_classes ((steps_classListing hmem).mem_classes hmem)
    · exact ih hc

theorem definitions_eq (h : Texts loader classes s s' lines) :
    definitions lines = classes.flatMap ClassInfo.ownLabels := by
  induction h with
  | nil => rfl
  | mark _ _ ih => exact ih
  | text _ hf _ ih => rw [definitions_append, definitions_classListing hf, ih, List.flatMap_cons]

end Texts

theorem texts_classesListing (hmem : ∀ c ∈ classes, c ∈ s.classes.latest)
    (hf : (s.classesListing loader classes).failure = none) :
    Texts loader classes s (s.classesListing loader classes).state (s.classesListing loader classes).lines := by
  induction classes generalizing s with
  | nil => exact .nil
  | cons c rest ih =>
    obtain ⟨hfirst, hrest, heq⟩ := Listing.andThen_of_success hf
    have hc := hmem c (List.mem_cons_self ..)
    have hsteps : Steps loader s _ := steps_classListing hc
    have hstay := hsteps.latest_suffix.subset
    rw [classesListing, heq]
    exact .text hc hfirst (ih (fun d hd => hstay (hmem d (List.mem_cons_of_mem _ hd))) hrest)

/-! ### The loop over the classes -/

/-- The superclass of each class is marked, or comes before the class. -/
def SuperFirst : (marked : List String) → List ClassInfo → Prop
  | _, [] => True
  | marked, c :: rest => (∀ n, c.superName = some n → n ∈ marked) ∧ SuperFirst (c.name :: marked) rest

theorem superFirst_append {marked : List String} {more : List ClassInfo} :
    SuperFirst marked (classes ++ more) ↔
      SuperFirst marked classes ∧ SuperFirst ((classes.map (·.name)).reverse ++ marked) more := by
  induction classes generalizing marked with
  | nil => exact ⟨fun h => ⟨trivial, h⟩, fun h => h.2⟩
  | cons c rest ih =>
    rw [List.cons_append, SuperFirst, SuperFirst, ih, List.map_cons, List.reverse_cons, List.append_assoc, and_assoc]
    rfl

/-- A class and its superclasses up to the first marked one, from there down. -/
theorem superFirst_pending (marked : List String) (hordered : ClassTable.Ordered s.classes.latest)
    (hc : c ∈ s.classes.latest) :
    SuperFirst marked ((s.classes.chain c).takeWhile fun k => !marked.contains k.name).reverse := by
  refine hordered.induct_chain (P := fun c =>
    SuperFirst marked ((s.classes.chain c).takeWhile fun k => !marked.contains k.name).reverse) ?_ hc
  intro c hc ih
  by_cases hmark : c.name ∈ marked
  · simp [ClassTable.chain, hmark, SuperFirst]
  cases hsuper : c.superName with
  | none =>
    rw [ClassTable.chain_of_superName_eq_none hsuper]
    simp [hmark, SuperFirst, hsuper]
  | some n =>
    obtain ⟨k, hk, rfl⟩ := hordered.super_mem hc hsuper
    rw [hordered.chain_eq hk hsuper, List.takeWhile_cons_of_pos (by simp [hmark]), List.reverse_cons, superFirst_append]
    refine ⟨ih k hk hsuper, ?_, trivial⟩
    rintro _ hn
    cases hsuper.symm.trans hn
    by_cases hkmark : k.name ∈ marked
    · exact List.mem_append_right _ hkmark
    · refine List.mem_append_left _ (List.mem_reverse.2 (List.mem_map_of_mem (List.mem_reverse.2 ?_)))
      simp [ClassTable.chain, hkmark]

/-- Texts of classes, each of which is marked once, and after its superclass. -/
structure Compiles (loader : Loader) (classes : List ClassInfo) (s s' : Session) (lines : List Line) : Prop where
  texts : Texts loader classes s s' lines
  compiled_eq : s'.compiled = (classes.map (·.name)).reverse ++ s.compiled
  nodup : s.compiled.Nodup → s'.compiled.Nodup
  superFirst : SuperFirst s.compiled classes

namespace Compiles

theorem refl : Compiles loader [] s s [] :=
  ⟨.nil, rfl, id, trivial⟩

theorem trans {s'' : Session} {more : List ClassInfo} {lines' : List Line} (h : Compiles loader classes s s' lines)
    (h' : Compiles loader more s' s'' lines') : Compiles loader (classes ++ more) s s'' (lines ++ lines') where
  texts := h.texts.append h'.texts
  compiled_eq := by simp [h.compiled_eq, h'.compiled_eq]
  nodup := h'.nodup ∘ h.nodup
  superFirst := superFirst_append.2 ⟨h.superFirst, h.compiled_eq ▸ h'.superFirst⟩

theorem linked (h : Compiles loader classes s s' lines) (hs : s.classes.Linked loader) : s'.classes.Linked loader :=
  h.texts.keep (P := fun s => s.classes.Linked loader) (fun hstep h => hstep.linked h) (fun _ h => h) hs

theorem mem_compiled {name : String} (h : Compiles loader classes s s' lines) (hname : name ∈ s.compiled) :
    name ∈ s'.compiled := by
  rw [h.compiled_eq]
  exact List.mem_append_right _ hname

end Compiles

theorem compiles_compileClass (hs : s.classes.Linked loader) (hc : c ∈ s.classes.latest)
    (hf : (s.compileClass loader c).failure = none) :
    (∃ classes, Compiles loader classes s (s.compileClass loader c).state (s.compileClass loader c).lines) ∧
      c.name ∈ (s.compileClass loader c).state.compiled := by
  let pending := (s.classes.chain c).takeWhile fun k => !s.compiled.contains k.name
  let marked : Session := { s with compiled := pending.map ClassInfo.name ++ s.compiled }
  have hmem : ∀ k ∈ pending.reverse, k ∈ marked.classes.latest := fun k hk =>
    ClassTable.mem_of_mem_chain hc (List.takeWhile_subset _ (List.mem_reverse.1 hk))
  have htexts : Texts loader pending.reverse marked (s.compileClass loader c).state _ := texts_classesListing hmem hf
  have hcompiled : (s.compileClass loader c).state.compiled = pending.map ClassInfo.name ++ s.compiled :=
    (steps_classesListing hmem).compiled_eq
  refine ⟨⟨pending.reverse, .mark _ htexts, by rw [hcompiled]; simp, fun hnodup => ?_,
    superFirst_pending s.compiled hs.ordered hc⟩, ?_⟩
  · rw [hcompiled]
    refine List.nodup_append.2 ⟨?_, hnodup, fun name hname name' hname' heq => ?_⟩
    · exact ((List.takeWhile_sublist _).map _).nodup (hs.ordered.nodup_chain hc)
    · obtain ⟨k, hk, rfl⟩ := List.mem_map.1 hname
      have hnot := List.mem_takeWhile_imp hk
      simp [heq, hname'] at hnot
  · rw [hcompiled]
    by_cases hmark : c.name ∈ s.compiled
    · exact List.mem_append_right _ hmark
    · refine List.mem_append_left _ (List.mem_map_of_mem ?_)
      simp [pending, ClassTable.chain, hmark]

/-- The classes before number `next` are marked, so at the end all are. -/
theorem compiles_compileFrom {fuel next : Nat} (hs : s.classes.Linked loader)
    (hnext : ∀ k < next, ∀ c, s.classes.order[k]? = some c → c.name ∈ s.compiled)
    (hf : (s.compileFrom loader fuel next).failure = none) :
    (∃ classes, Compiles loader classes s (s.compileFrom loader fuel next).state
      (s.compileFrom loader fuel next).lines) ∧
      ∀ c ∈ (s.compileFrom loader fuel next).state.classes.latest,
        c.name ∈ (s.compileFrom loader fuel next).state.compiled := by
  induction fuel generalizing next s with
  | zero => cases hf
  | succ fuel ih =>
    rw [compileFrom] at hf ⊢
    split at hf
    · rename_i hnone
      refine ⟨⟨[], .refl⟩, fun c hc => ?_⟩
      obtain ⟨k, hk, rfl⟩ := List.getElem_of_mem (ClassTable.mem_order.2 hc)
      have hlen := List.getElem?_eq_none_iff.1 hnone
      exact hnext k (Nat.lt_of_lt_of_le hk hlen) _ (List.getElem?_eq_getElem hk)
    · rename_i c hc
      have hmem := ClassTable.mem_order.1 (List.mem_of_getElem? hc)
      obtain ⟨hfirst, hrest, heq⟩ := Listing.andThen_of_success hf
      obtain ⟨⟨classes, hclasses⟩, hself⟩ := compiles_compileClass hs hmem hfirst
      rw [heq]
      have hbefore : ∀ k < next + 1, ∀ d, (s.compileClass loader c).state.classes.order[k]? = some d →
          d.name ∈ (s.compileClass loader c).state.compiled := by
        -- New classes are at the end of the order, so the ones before `next` are those of `s`.
        have hprefix : s.classes.order <+: (s.compileClass loader c).state.classes.order :=
          List.reverse_prefix.2 <| hclasses.texts.keep
            (P := fun s' => s.classes.latest <:+ s'.classes.latest)
            (fun hstep h => h.trans hstep.latest_suffix) (fun _ h => h) (List.suffix_refl _)
        obtain ⟨later, hlater⟩ := hprefix
        have hlt := (List.getElem?_eq_some_iff.1 hc).1
        intro k hk d hd
        rw [← hlater, List.getElem?_append_left (by omega)] at hd
        rcases Nat.lt_succ_iff_lt_or_eq.1 hk with hk | rfl
        · exact hclasses.mem_compiled (hnext k hk d hd)
        · rw [hc] at hd
          cases hd
          exact hself
      obtain ⟨⟨more, hmore⟩, hall⟩ := ih (hclasses.linked hs) hbefore hrest
      exact ⟨⟨classes ++ more, hclasses.trans hmore⟩, hall⟩

/-- Lists that hold all classes of a session, each one once, differ in the order at most. -/
theorem perm_order (hordered : ClassTable.Ordered s.classes.latest) (hclasses : ∀ c, c ∈ s.classes.latest ↔ c ∈ classes)
    (hnames : (classes.map (·.name)).Nodup) : classes.Perm s.classes.order := by
  have hnodup {classes : List ClassInfo} (h : (classes.map (·.name)).Nodup) : classes.Nodup :=
    List.Pairwise.of_map _ (fun _ _ hne heq => hne (congrArg _ heq)) h
  refine (List.perm_ext_iff_of_nodup (hnodup hnames) (hnodup hordered.nodup_order)).2 fun c => ?_
  rw [ClassTable.mem_order, hclasses]

/-- A program that is accepted, from its entry class on: the texts of all its classes, each one once and after that of
its superclass, and the data. -/
theorem compile_in_order {prologue : ByteArray} {entry : String}
    (hf : (({} : Session).compile loader prologue entry).failure = none) :
    ∃ s₁ c s classes s' lines, ({} : Session).bootstrap loader = (.ok (), s₁) ∧
      s₁.resolveClass loader entry = (.ok c, s) ∧ Texts loader classes s s' lines ∧ SuperFirst [] classes ∧
      (∀ c, c ∈ s'.classes.latest ↔ c ∈ classes) ∧ (classes.map (·.name)).Nodup ∧
      (s'.close.dataLines loader).failure = none ∧
      ({} : Session).compile loader prologue entry =
        (s'.close.dataLines loader).prepend (.raw prologue :: lines) := by
  have hboot := (changes_bootstrap loader {}).steps
  rw [compile] at hf ⊢
  rcases hresult : ({} : Session).bootstrap loader with ⟨failure | _, s₁⟩
  · simp [hresult, Listing.fail, Listing.prepend] at hf
  rcases hentry : s₁.resolveClass loader entry with ⟨failure | c, s₂⟩
  · simp [hresult, hentry, Listing.fail, Listing.prepend] at hf
  simp only [hresult, hentry] at hf hboot ⊢
  have hsteps : Steps loader {} s₂ := hboot.trans (changes_resolveClass hentry).steps
  have hs : s₂.classes.Linked loader := (Reached.start.steps hsteps).linked
  have hc := ClassTable.mem_of_find? (find?_of_resolveClass hentry)
  obtain ⟨hclasses, hdata, heq⟩ := Listing.andThen_of_success hf
  obtain ⟨hfirst, hrest, heq'⟩ := Listing.andThen_of_success hclasses
  obtain ⟨⟨classes, hfirsts⟩, -⟩ := compiles_compileClass hs hc hfirst
  obtain ⟨⟨more, hmore⟩, hall⟩ := compiles_compileFrom (hfirsts.linked hs) (by simp) hrest
  have hcompiles := hfirsts.trans hmore
  have hcompiled := hcompiles.compiled_eq
  rw [hsteps.compiled_eq, List.append_nil] at hcompiled
  have hnodup := hcompiles.nodup (hsteps.compiled_eq ▸ List.nodup_nil)
  rw [hcompiled, List.nodup_reverse] at hnodup
  have horder : SuperFirst [] (classes ++ more) := by
    have horder := hcompiles.superFirst
    rwa [hsteps.compiled_eq] at horder
  rw [heq, heq']
  rw [heq'] at hdata
  refine ⟨s₁, c, s₂, _, _, _, rfl, hentry, hcompiles.texts, horder,
    fun k => ⟨fun hk => ?_, hcompiles.texts.mem_classes_of_mem⟩, hnodup, hdata, ?_⟩
  · -- A class with a marked name is the one that was written under it.
    have hmarked := hall k hk
    rw [hcompiled, List.mem_reverse] at hmarked
    obtain ⟨k', hk', hname⟩ := List.mem_map.1 hmarked
    have hordered := (hcompiles.linked hs).ordered
    have hfind := hordered.find?_name (hcompiles.texts.mem_classes_of_mem hk')
    rw [hname, hordered.find?_name hk] at hfind
    cases hfind
    exact hk'
  · simp only [Listing.prepend, List.cons_append, List.nil_append]

/-- A program that is accepted: the texts of all its classes, each one once, and the data. -/
theorem compile_of_success {prologue : ByteArray} {entry : String}
    (hf : (({} : Session).compile loader prologue entry).failure = none) :
    ∃ classes s s' lines, Steps loader {} s ∧ Texts loader classes s s' lines ∧
      (∀ c, c ∈ s'.classes.latest ↔ c ∈ classes) ∧ (classes.map (·.name)).Nodup ∧
      (s'.close.dataLines loader).failure = none ∧
      ({} : Session).compile loader prologue entry =
        (s'.close.dataLines loader).prepend (.raw prologue :: lines) := by
  obtain ⟨s₁, c, s, classes, s', lines, hboot, hentry, htexts, -, hrest⟩ := compile_in_order hf
  have hchanges := changes_bootstrap loader {}
  rw [hboot] at hchanges
  exact ⟨classes, s, s', lines, (hchanges.trans (changes_resolveClass hentry)).steps, htexts, hrest⟩

end Session

end JvmAot
