import JvmAot.Proofs.Session.FieldStorage
import JvmAot.Proofs.Session.Metadata

/-! # Classes do not depend on the order of resolution

A class is built from its file and its superclass (`Defines`). Of all that was resolved before, only the pool of
static fields has an influence on it, so any two sessions with the same loader agree on a class but for the offsets
of its static fields. -/

namespace JvmAot

/-- The same field, with the same storage in objects. -/
structure FieldInfo.Agrees (f g : FieldInfo) : Prop where
  owner : f.owner = g.owner
  name : f.name = g.name
  flags : f.flags = g.flags
  type : f.type = g.type
  offset : ¬ f.flags.isStatic → f.offset = g.offset

theorem FieldInfo.Agrees.eq {f g : FieldInfo} (h : f.Agrees g) (hstatic : ¬ f.flags.isStatic) : f = g := by
  obtain ⟨howner, hname, hflags, htype, hoffset⟩ := h
  cases f
  cases g
  simp_all

theorem filter_static_of_agrees {fields fields' : List FieldInfo} (h : List.Forall₂ FieldInfo.Agrees fields fields') :
    (fields.filter fun f => !f.flags.isStatic) = fields'.filter fun f => !f.flags.isStatic := by
  induction h with
  | nil => rfl
  | @cons f g _ _ hf _ ih =>
    by_cases hstatic : f.flags.isStatic
    · have hstatic' : g.flags.isStatic := hf.flags ▸ hstatic
      simp [hstatic, hstatic', ih]
    · obtain rfl := hf.eq hstatic
      simp [hstatic, ih]

/-- The pool that static fields come from has no influence on instance fields. -/
theorem agrees_allocateFields {owner : String} {decls : List FieldDecl} {layout layout₁ layout₂ : FieldLayout}
    {fields₁ fields₂ : List FieldInfo} {pool₁ pool₁' pool₂ pool₂' : FieldAllocator}
    (h₁ : allocateFields owner decls layout pool₁ = (.ok (fields₁, layout₁), pool₁'))
    (h₂ : allocateFields owner decls layout pool₂ = (.ok (fields₂, layout₂), pool₂')) :
    List.Forall₂ FieldInfo.Agrees fields₁ fields₂ ∧ layout₁ = layout₂ := by
  induction decls generalizing layout fields₁ fields₂ pool₁ pool₂ with
  | nil =>
    cases h₁
    cases h₂
    exact ⟨.nil, rfl⟩
  | cons f decls ih =>
    obtain ⟨type, offset₁, rest₁, rfl, htype, hcases₁⟩ := allocateFields_cons_eq_ok h₁
    obtain ⟨type', offset₂, rest₂, rfl, htype', hcases₂⟩ := allocateFields_cons_eq_ok h₂
    rw [htype] at htype'
    cases htype'
    rcases hcases₁ with ⟨hstatic, _, -, hrest₁⟩ | ⟨hstatic, next₁, htake₁, hrest₁⟩
    · rcases hcases₂ with ⟨-, _, -, hrest₂⟩ | ⟨hstatic', _⟩
      · obtain ⟨hfields, hlayout⟩ := ih hrest₁ hrest₂
        exact ⟨.cons ⟨rfl, rfl, rfl, rfl, fun hnot => absurd hstatic hnot⟩ hfields, hlayout⟩
      · simp [hstatic] at hstatic'
    · rcases hcases₂ with ⟨hstatic', _⟩ | ⟨-, next₂, htake₂, hrest₂⟩
      · simp [hstatic] at hstatic'
      · rw [htake₁] at htake₂
        cases htake₂
        obtain ⟨hfields, hlayout⟩ := ih hrest₁ hrest₂
        exact ⟨.cons ⟨rfl, rfl, rfl, rfl, fun _ => rfl⟩ hfields, hlayout⟩

/-- The same class, with the same storage in objects and the same vtable. -/
structure ClassInfo.Agrees (c d : ClassInfo) : Prop where
  name : c.name = d.name
  superName : c.superName = d.superName
  flags : c.flags = d.flags
  fields : List.Forall₂ FieldInfo.Agrees c.fields d.fields
  layout : c.layout = d.layout
  methods : c.methods = d.methods
  vtable : c.vtable = d.vtable

namespace ClassTable

variable {loader : Loader} {t t' : ClassTable} {c d : ClassInfo}

/-- A class was built, with its fields, from its file and the superclass that the file names. -/
structure Defines (loader : Loader) (t : ClassTable) (c : ClassInfo) (file : ClassFile) (super : Option ClassInfo) :
    Prop extends Builds loader t c file super where
  declared : c.superName = file.superName.map ClassName.slashed
  fields : ∃ pool pool', allocateFields c.name file.fields ((super.map (·.layout)).getD {}) pool =
    (.ok (c.fields, c.layout), pool')

/-- Every class was built from its file. -/
structure Defined (loader : Loader) (t : ClassTable) : Prop where
  linked : t.Linked loader
  defines : ∀ c ∈ t.latest, ∃ file super, t.Defines loader c file super

namespace Defined

theorem insert (h : t.Defined loader) (hfresh : t.find? c.name = none) {file : ClassFile} {super : Option ClassInfo}
    (hc : t.Defines loader c file super) : (t.insert c).Defined loader where
  linked := h.linked.insert hfresh hc.toBuilds
  defines := by
    have hmono {d : ClassInfo} {file : ClassFile} {super : Option ClassInfo} (hd : t.Defines loader d file super) :
        (t.insert c).Defines loader d file super :=
      { hd with super_mem := fun k hk => List.mem_cons_of_mem _ (hd.super_mem k hk) }
    refine List.forall_mem_cons.2 ⟨⟨file, super, hmono hc⟩, fun d hd => ?_⟩
    obtain ⟨file, super, hd⟩ := h.defines d hd
    exact ⟨file, super, hmono hd⟩

/-- Two tables with the same loader agree on a class. -/
theorem agrees (h : t.Defined loader) (h' : t'.Defined loader) (hc : c ∈ t.latest) (hd : d ∈ t'.latest)
    (hname : c.name = d.name) : c.Agrees d := by
  refine h.linked.ordered.induct_chain (P := fun c => ∀ d ∈ t'.latest, c.name = d.name → c.Agrees d) ?_ hc d hd hname
  intro c hc ih d hd hname
  obtain ⟨file, super, hdef⟩ := h.defines c hc
  obtain ⟨file', super', hdef'⟩ := h'.defines d hd
  obtain rfl : file = file' := by
    have hload := hdef.load
    rw [hname, hdef'.load] at hload
    exact (Except.ok.inj hload).symm
  have hsuperName : c.superName = d.superName := hdef.declared.trans hdef'.declared.symm
  -- Both classes continue the same layout and the same vtable.
  obtain ⟨hlayout, hvtable⟩ : (super.map (·.layout)).getD {} = (super'.map (·.layout)).getD {} ∧
      (super.map (·.vtable)).getD {} = (super'.map (·.vtable)).getD {} := by
    have hnames := hdef.superName.symm.trans (hsuperName.trans hdef'.superName)
    cases super with
    | none =>
      cases super' with
      | none => exact ⟨rfl, rfl⟩
      | some k' => cases hnames
    | some k =>
      cases super' with
      | none => cases hnames
      | some k' =>
        have hagrees := ih k (hdef.super_mem k rfl) hdef.superName k' (hdef'.super_mem k' rfl) (Option.some.inj hnames)
        exact ⟨hagrees.layout, hagrees.vtable⟩
  obtain ⟨pool₁, _, hfields₁⟩ := hdef.fields
  obtain ⟨pool₂, _, hfields₂⟩ := hdef'.fields
  rw [hname, hlayout] at hfields₁
  obtain ⟨hfields, hsame⟩ := agrees_allocateFields hfields₁ hfields₂
  have hmethods := hdef.methods
  rw [hname, hvtable, hdef'.methods] at hmethods
  obtain ⟨hmethods, hslots⟩ := Prod.mk.inj (Except.ok.inj hmethods)
  exact ⟨hname, hsuperName, hdef.flags.trans hdef'.flags.symm, hfields, hsame, hmethods.symm, hslots.symm⟩

theorem agrees_chain (h : t.Defined loader) (h' : t'.Defined loader) (hc : c ∈ t.latest) (hd : d ∈ t'.latest)
    (hname : c.name = d.name) : List.Forall₂ ClassInfo.Agrees (t.chain c) (t'.chain d) := by
  refine h.linked.ordered.induct_chain (P := fun c => ∀ d ∈ t'.latest, c.name = d.name →
    List.Forall₂ ClassInfo.Agrees (t.chain c) (t'.chain d)) ?_ hc d hd hname
  intro c hc ih d hd hname
  have hagrees := h.agrees h' hc hd hname
  cases hsuper : c.superName with
  | none =>
    rw [chain_of_superName_eq_none hsuper, chain_of_superName_eq_none (hagrees.superName ▸ hsuper)]
    exact .cons hagrees .nil
  | some n =>
    obtain ⟨k, hk, rfl⟩ := h.linked.ordered.super_mem hc hsuper
    have hsuper' : d.superName = some k.name := hagrees.superName ▸ hsuper
    obtain ⟨k', hk', hkname⟩ := h'.linked.ordered.super_mem hd hsuper'
    rw [h.linked.ordered.chain_eq hk hsuper, h'.linked.ordered.chain_eq hk' (hkname ▸ hsuper')]
    exact .cons hagrees (ih k hk hsuper k' hk' hkname.symm)

end Defined

theorem map_name_of_agrees {classes classes' : List ClassInfo} (h : List.Forall₂ ClassInfo.Agrees classes classes') :
    classes.map (·.name) = classes'.map (·.name) := by
  induction h with
  | nil => rfl
  | cons hc _ ih => rw [List.map_cons, List.map_cons, hc.name, ih]

theorem instanceFields_of_agrees (h : List.Forall₂ ClassInfo.Agrees (t.chain c) (t'.chain d)) :
    t.instanceFields c = t'.instanceFields d := by
  unfold instanceFields
  generalize t.chain c = classes at h
  generalize t'.chain d = classes' at h
  induction h with
  | nil => rfl
  | cons hc _ ih => rw [List.flatMap_cons, List.flatMap_cons, filter_static_of_agrees hc.fields, ih]

end ClassTable

namespace Session

variable {loader : Loader} {s s' s₁ s₂ : Session} {c d : ClassInfo}

theorem Change.defined (hchange : Change loader s s') (h : s.classes.Defined loader) : s'.classes.Defined loader := by
  cases hchange with
  | @define name file super hform hload hfresh hname hsuper =>
    rcases define_cases name file super s with
      ⟨_, heq⟩ | ⟨c, statics, heap, heq, rfl, hcsuper, hflags, hfields, hmethods, -⟩ <;> rw [heq]
    · exact h
    · exact h.insert hfresh
        ⟨⟨hform, hload, hflags, hcsuper, hsuper, hmethods⟩, hcsuper.trans hname, s.statics, statics, hfields⟩
  | defineArray | designate => exact h

theorem Step.defined (hstep : Step loader s s') (h : s.classes.Defined loader) : s'.classes.Defined loader := by
  cases hstep with
  | change hchange => exact hchange.defined h
  | string => rw [stringObject_frame]; exact h
  | label | fill => exact h

/-- What resolution makes of classes and their metadata. -/
structure Resolved (loader : Loader) (s : Session) : Prop where
  defined : s.classes.Defined loader
  populated : s.Populated
  described : s.Described

theorem Resolved.close (h : s.Resolved loader) : s.close.Resolved loader :=
  ⟨h.defined, ⟨h.populated.holds, h.populated.tabled, h.populated.vtables, h.populated.root⟩,
    ⟨h.described.separate, h.described.metadata⟩⟩

theorem Reachable.resolved (h : s.Reachable loader) : s.Resolved loader := by
  refine h.induct ?_ (fun hchange h => ?_) (fun h => h.close)
  · exact ⟨⟨.empty, by simp⟩, .start, .start⟩
  · exact ⟨hchange.defined h.defined, h.populated.change hchange h.defined.linked,
      h.described.change hchange h.populated⟩

theorem Step.resolved (hstep : Step loader s s') (h : s.Resolved loader) : s'.Resolved loader :=
  ⟨hstep.defined h.defined, h.populated.step hstep h.defined.linked, h.described.step hstep h.populated⟩

theorem Steps.resolved (hsteps : Steps loader {} s) : s.Resolved loader :=
  hsteps.keep (P := Resolved loader) (fun hstep h => hstep.resolved h) ⟨⟨.empty, by simp⟩, .start, .start⟩

theorem Texts.resolved {classes : List ClassInfo} {lines : List Line} (htexts : Texts loader classes s s' lines)
    (h : s.Resolved loader) : s'.Resolved loader := by
  refine htexts.keep (P := Resolved loader) (fun hstep h => hstep.resolved h) (fun _ h => ?_) h
  exact ⟨h.defined, ⟨h.populated.holds, h.populated.tabled, h.populated.vtables, h.populated.root⟩,
    ⟨h.described.separate, h.described.metadata⟩⟩

/-- Any two sessions with the same loader, whatever was resolved in them in whatever order and with whatever
failures, agree on each class that is in both: on its superclasses, its instance fields and their offsets, its
layout, its methods with their slots, its vtable, and on the kind and the parent that its metadata has. Only the
offsets of static fields can differ. -/
theorem Reachable.classes_agree (h₁ : s₁.Reachable loader) (h₂ : s₂.Reachable loader) (hc : c ∈ s₁.classes.order)
    (hd : d ∈ s₂.classes.order) (hname : c.name = d.name) :
    (s₁.classes.chain c).map (·.name) = (s₂.classes.chain d).map (·.name) ∧
      s₁.classes.instanceFields c = s₂.classes.instanceFields d ∧
      List.Forall₂ FieldInfo.Agrees c.fields d.fields ∧
      c.layout = d.layout ∧ c.methods = d.methods ∧ c.vtable = d.vtable ∧
      ∃ m₁ m₂, s₁.heap.metadata? c.metadata = some m₁ ∧ s₂.heap.metadata? d.metadata = some m₂ ∧
        m₁.kind = m₂.kind ∧ m₁.name = m₂.name ∧
        ((m₁.parent = none ∧ m₂.parent = none) ∨
          ∃ k₁ ∈ s₁.classes.order, ∃ k₂ ∈ s₂.classes.order,
            k₁.name = k₂.name ∧ m₁.parent = some k₁.metadata ∧ m₂.parent = some k₂.metadata) := by
  simp only [ClassTable.mem_order] at hc hd ⊢
  have hs₁ := h₁.resolved
  have hs₂ := h₂.resolved
  have hagrees := hs₁.defined.agrees hs₂.defined hc hd hname
  have hchain := hs₁.defined.agrees_chain hs₂.defined hc hd hname
  refine ⟨ClassTable.map_name_of_agrees hchain, ClassTable.instanceFields_of_agrees hchain, hagrees.fields,
    hagrees.layout, hagrees.methods, hagrees.vtable, ?_⟩
  obtain ⟨m₁, super₁, hm₁, hdesc₁⟩ := hs₁.described.metadata c hc
  obtain ⟨m₂, super₂, hm₂, hdesc₂⟩ := hs₂.described.metadata d hd
  have hinterface : c.isInterface = d.isInterface := congrArg AccessFlags.isInterface hagrees.flags
  refine ⟨m₁, m₂, hm₁, hm₂, ?_, ?_, ?_⟩
  · rw [hdesc₁.kind, hdesc₂.kind, hinterface]
  · rw [hdesc₁.name, hdesc₂.name, hname]
  rw [hdesc₁.parent, hdesc₂.parent, hinterface]
  by_cases hd : d.isInterface
  · exact .inl (by simp [hd])
  simp only [hd]
  have hnames : super₁.map (·.name) = super₂.map (·.name) :=
    hdesc₁.superName.symm.trans (hagrees.superName.trans hdesc₂.superName)
  cases super₁ with
  | none =>
    cases super₂ with
    | none => exact .inl ⟨rfl, rfl⟩
    | some k₂ => cases hnames
  | some k₁ =>
    cases super₂ with
    | none => cases hnames
    | some k₂ =>
      exact .inr ⟨k₁, hdesc₁.super_mem k₁ rfl, k₂, hdesc₂.super_mem k₂ rfl, Option.some.inj hnames, rfl, rfl⟩

/-- Two classes with static fields, beside the classes that every session starts with. -/
def tallies : Loader where
  load
    | "java/lang/Object" => .ok (fileOf "java/lang/Object" none [⟨⟨0⟩, "vtable", "Ljava/lang/Object;"⟩])
    | "java/lang/Array" => .ok (fileOf "java/lang/Array" (some "java/lang/Object") [⟨⟨0⟩, "length", "I"⟩])
    | "java/lang/String" => .ok (fileOf "java/lang/String" (some "java/lang/Object") [⟨⟨0⟩, "value", "[C"⟩])
    | "Tally" => .ok (fileOf "Tally" (some "java/lang/Object") [⟨⟨8⟩, "count", "S"⟩, ⟨⟨0⟩, "mark", "B"⟩])
    | "Ledger" => .ok (fileOf "Ledger" (some "java/lang/Object") [⟨⟨8⟩, "total", "J"⟩, ⟨⟨0⟩, "next", "LLedger;"⟩])
    | name => .error (Cause.classNotFound name : Failure)
  limit := 5

/-- A session in which the one class is resolved first. -/
def tallyFirst : Session :=
  ((({} : Session).bootstrap tallies).2.resolveClass tallies "Tally").2.resolveClass tallies "Ledger" |>.2

/-- A session in which the other class is resolved first, through an array type, and a class is not found. -/
def ledgerFirst : Session :=
  (((({} : Session).bootstrap tallies).2.resolveArray tallies "[[LLedger;").2.resolveClass tallies "Lost").2.resolveClass
    tallies "Tally" |>.2

theorem tally_agrees :
    ∃ c ∈ tallyFirst.classes.order, ∃ d ∈ ledgerFirst.classes.order, c.name = "Tally" ∧ d.name = "Tally" ∧
      c.fields.map (·.offset) = [0, 4] ∧ d.fields.map (·.offset) = [8, 4] ∧
      tallyFirst.classes.instanceFields c = ledgerFirst.classes.instanceFields d ∧ c.layout = d.layout := by
  have h₁ : tallyFirst.Reachable tallies := .resolveClass (.resolveClass (.bootstrap .start) "Tally") "Ledger"
  have h₂ : ledgerFirst.Reachable tallies :=
    .resolveClass (.resolveClass (.resolveArray (.bootstrap .start) "[[LLedger;") "Lost") "Tally"
  obtain ⟨c, hc, hcname, hcfields⟩ :
      ∃ c ∈ tallyFirst.classes.order, c.name = "Tally" ∧ c.fields.map (·.offset) = [0, 4] := by decide +kernel
  obtain ⟨d, hd, hdname, hdfields⟩ :
      ∃ d ∈ ledgerFirst.classes.order, d.name = "Tally" ∧ d.fields.map (·.offset) = [8, 4] := by decide +kernel
  obtain ⟨-, hinstance, -, hlayout, -⟩ := h₁.classes_agree h₂ hc hd (hcname.trans hdname.symm)
  exact ⟨c, hc, d, hd, hcname, hdname, hcfields, hdfields, hinstance, hlayout⟩

end Session

end JvmAot
