import JvmAot.Proofs.Layout.Fields
import JvmAot.Proofs.Session.Resolution

/-! # The storage of fields in a session

Whatever was resolved, in whatever order and with whatever failures on the way: the fields of an object,
inherited ones included, do not overlap, and neither do the static fields of all classes. -/

namespace JvmAot

theorem ClassTable.map_span_instanceFields (t : ClassTable) (c : ClassInfo) :
    (t.instanceFields c).map FieldInfo.span = (t.chain c).flatMap fun k => fieldSpans false k.fields := by
  simp [instanceFields, fieldSpans, List.map_flatMap]

namespace Session

variable {loader : Loader} {s s' : Session} {c : ClassInfo} {name : String} {file : ClassFile}
  {super : Option ClassInfo}

/-- The static fields of all classes. -/
def staticFields (s : Session) : List FieldInfo :=
  s.classes.order.flatMap fun c => c.fields.filter (·.flags.isStatic)

theorem map_span_staticFields (s : Session) :
    s.staticFields.map FieldInfo.span = s.classes.order.flatMap fun c => fieldSpans true c.fields := by
  simp [staticFields, fieldSpans, List.map_flatMap]

/-- Fields have storage of their own. The holes in a layout are kept apart too, as later fields go there. -/
structure Stored (loader : Loader) (s : Session) : Prop where
  ordered : ClassTable.Ordered s.classes.latest
  /-- A class has the fields of its file. -/
  declared : ∀ c ∈ s.classes.latest, ∃ file, loader.load c.name = .ok file ∧
    c.superName = file.superName.map ClassName.slashed ∧
    List.Forall₂ (FieldInfo.Declared c.name) file.fields c.fields
  /-- The fields that a class declares and inherits share its layout. -/
  instances : ∀ c ∈ s.classes.latest,
    c.layout.Holds ((s.classes.chain c).flatMap fun k => fieldSpans false k.fields)
  /-- A class is no smaller than its superclass. -/
  grows : ∀ c ∈ s.classes.latest, ∀ n, c.superName = some n →
    ∃ super ∈ s.classes.latest, super.name = n ∧ super.layout.words ≤ c.layout.words
  /-- The static fields of all classes share the pool. -/
  statics : s.statics.layout.Holds (s.classes.latest.flatMap fun c => fieldSpans true c.fields)

namespace Stored

theorem start : Stored loader {} where
  ordered := trivial
  declared := by simp
  instances := by simp
  grows := by simp
  statics := FieldLayout.holds_nil

/-- Only classes and the pool matter. -/
theorem congr (h : s.Stored loader) (hclasses : s'.classes = s.classes)
    (hstatics : s'.statics.layout = s.statics.layout) : s'.Stored loader := by
  constructor <;> simp only [hclasses, hstatics]
  exacts [h.ordered, h.declared, h.instances, h.grows, h.statics]

/-- The layout that a class continues holds the fields that it inherits. -/
theorem inherited (h : s.Stored loader) (hsuper : ∀ c, super = some c → c ∈ s.classes.latest) :
    ((super.map (·.layout)).getD {} : FieldLayout).Holds
      ((ClassTable.chainIn s.classes.latest (super.map (·.name))).flatMap fun k => fieldSpans false k.fields) := by
  cases super with
  | none => simpa using FieldLayout.holds_nil
  | some sup =>
    have hmem := hsuper sup rfl
    have hinstances := h.instances sup hmem
    rwa [ClassTable.chain, ← h.ordered.chainIn_name hmem] at hinstances

theorem define (h : s.Stored loader) (hload : loader.load name = .ok file)
    (hfresh : s.classes.find? name = none) (hname : super.map (·.name) = file.superName.map ClassName.slashed)
    (hsuper : ∀ c, super = some c → c ∈ s.classes.latest) : (s.define name file super).2.Stored loader := by
  rcases define_cases name file super s with
    ⟨_, heq⟩ | ⟨c, statics, heap, heq, rfl, hcsuper, -, hfields, -⟩ <;> rw [heq]
  · exact { h with statics := pool_allocateFields h.statics }
  obtain ⟨hinstances, hwords, hpool⟩ := holds_allocateFields hfields (h.inherited hsuper) h.statics
  have hgrows : ∀ n, c.superName = some n →
      ∃ sup ∈ s.classes.latest, sup.name = n ∧ sup.layout.words ≤ c.layout.words := by
    intro n hn
    rw [hcsuper] at hn
    obtain ⟨sup, rfl, rfl⟩ := Option.map_eq_some_iff.1 hn
    exact ⟨sup, hsuper sup rfl, rfl, hwords⟩
  have hordered : ClassTable.Ordered (s.classes.insert c).latest :=
    ⟨⟨ClassTable.find?_eq_none.1 hfresh, fun n hn =>
      let ⟨sup, hmem, hsup, _⟩ := hgrows n hn
      ⟨sup, hmem, hsup⟩⟩, h.ordered⟩
  refine ⟨hordered, ?_, fun d hd => ?_, fun d hd n hn => ?_, hpool⟩
  · exact List.forall_mem_cons.2 ⟨⟨file, hload, hcsuper.trans hname, declared_allocateFields hfields⟩, h.declared⟩
  · -- A class that is added last is below no other one, so the chains of the others stay as they are.
    rw [hordered.chain_insert hd]
    rcases List.mem_cons.1 hd with rfl | hd
    · rwa [ClassTable.chain, hcsuper, List.flatMap_cons]
    · exact h.instances d hd
  · obtain ⟨sup, hmem, hsup⟩ : ∃ sup ∈ s.classes.latest, sup.name = n ∧ sup.layout.words ≤ d.layout.words := by
      rcases List.mem_cons.1 hd with rfl | hd
      · exact hgrows n hn
      · exact h.grows d hd n hn
    exact ⟨sup, List.mem_cons_of_mem _ hmem, hsup⟩

theorem change (hchange : Change loader s s') (h : s.Stored loader) : s'.Stored loader := by
  cases hchange with
  | define _ hload hfresh hname hsuper => exact h.define hload hfresh hname hsuper
  | defineArray => exact h.congr rfl rfl
  | designate => exact h.congr rfl rfl

end Stored

theorem Reachable.stored (h : s.Reachable loader) : s.Stored loader :=
  h.induct .start .change fun h => h.congr rfl rfl

/-- Every class has the fields of its file. The fields of its instances, with those of all its superclasses, do
not overlap and fill aligned places within its size, which is in whole words and no less than that of its
superclass. The static fields of all classes do not overlap either, within the words of the pool. -/
theorem Reachable.fields_apart (h : s.Reachable loader) :
    (∀ c ∈ s.classes.order,
      (∃ file, loader.load c.name = .ok file ∧ c.superName = file.superName.map ClassName.slashed ∧
        List.Forall₂ (FieldInfo.Declared c.name) file.fields c.fields) ∧
      Packed ((s.classes.instanceFields c).map FieldInfo.span) c.layout.size ∧
      4 ∣ c.layout.size ∧
      (c.superName = none → s.classes.chain c = [c]) ∧
      ∀ n, c.superName = some n → ∃ super ∈ s.classes.order, super.name = n ∧
        s.classes.chain c = c :: s.classes.chain super ∧ super.layout.size ≤ c.layout.size) ∧
    Packed (s.staticFields.map FieldInfo.span) (4 * s.staticWords) := by
  have hstored := h.stored
  refine ⟨fun c hc => ?_, ?_⟩
  · rw [ClassTable.mem_order] at hc
    refine ⟨hstored.declared c hc, ?_, Nat.dvd_mul_right .., ClassTable.chain_of_superName_eq_none, fun n hn => ?_⟩
    · rw [ClassTable.map_span_instanceFields]
      exact (hstored.instances c hc).packed
    · obtain ⟨super, hmem, rfl, hwords⟩ := hstored.grows c hc n hn
      exact ⟨super, ClassTable.mem_order.2 hmem, rfl, hstored.ordered.chain_eq hmem hn,
        Nat.mul_le_mul_left 4 hwords⟩
  · rw [map_span_staticFields]
    exact hstored.statics.packed.perm ((List.reverse_perm _).symm.flatMap_right _)

/-- A class file without methods. -/
def fileOf (name : String) (superName : Option String) (fields : List FieldDecl) : ClassFile where
  minor := 0
  major := 52
  flags := ⟨1⟩
  name
  superName
  interfaces := []
  fields
  methods := []

/-- A class and its subclass, both with a field of the same name, and a class whose second field has no type. -/
def shapes : Loader where
  load
    | "Shape" => .ok (fileOf "Shape" none [⟨⟨2⟩, "tag", "B"⟩, ⟨⟨0⟩, "area", "J"⟩, ⟨⟨8⟩, "count", "S"⟩])
    | "Circle" => .ok (fileOf "Circle" (some "Shape")
        [⟨⟨0⟩, "tag", "B"⟩, ⟨⟨0⟩, "kind", "S"⟩, ⟨⟨0⟩, "radius", "I"⟩, ⟨⟨8⟩, "unit", "B"⟩])
    | "Broken" => .ok (fileOf "Broken" none [⟨⟨8⟩, "lost", "B"⟩, ⟨⟨0⟩, "odd", "Q"⟩])
    | name => .error (Cause.classNotFound name : Failure)
  limit := 3

/-- The failed resolution of one class, then that of another one. -/
def shapesResolved : Session :=
  (((({} : Session).resolveClass shapes "Broken").2.resolveClass shapes "Circle").2).close

theorem shapes_fields_apart :
    shapesResolved.Reachable shapes ∧
      (shapesResolved.classes.order.map fun c =>
        (c.name, c.layout.size, (shapesResolved.classes.instanceFields c).map FieldInfo.span)) =
        [("Shape", 12, [⟨0, 1⟩, ⟨4, 8⟩]), ("Circle", 16, [⟨1, 1⟩, ⟨2, 2⟩, ⟨12, 4⟩, ⟨0, 1⟩, ⟨4, 8⟩])] ∧
      (∀ c ∈ shapesResolved.classes.order,
        Packed ((shapesResolved.classes.instanceFields c).map FieldInfo.span) c.layout.size) ∧
      shapesResolved.staticFields.map FieldInfo.span = [⟨2, 2⟩, ⟨1, 1⟩] ∧
      Packed (shapesResolved.staticFields.map FieldInfo.span) (4 * shapesResolved.staticWords) := by
  have hreachable : shapesResolved.Reachable shapes :=
    .close (.resolveClass (.resolveClass .start "Broken") "Circle")
  obtain ⟨hclasses, hstatics⟩ := hreachable.fields_apart
  exact ⟨hreachable, by decide +kernel, fun c hc => (hclasses c hc).2.1, by decide +kernel, hstatics⟩

end Session

end JvmAot
