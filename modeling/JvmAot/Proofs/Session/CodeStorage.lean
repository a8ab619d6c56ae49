import JvmAot.Proofs.Lowering.Storage
import JvmAot.Proofs.Session.Bodies
import JvmAot.Session.LayoutMap

/-! # Code goes by the final storage

Code is written while more classes are still being resolved. A class keeps its storage, so the sizes and offsets in the
code of an instruction are those that the layout map lists in the end (`Session.Follows`). -/

namespace JvmAot

/-! ### Numbers in code -/

/-- What a layout map lists for a field. -/
def FieldInfo.entry (f : FieldInfo) : FieldEntry where
  name := f.name
  descriptor := f.type.toText
  offset := f.offset
  isStatic := f.flags.isStatic

namespace Lowering

/-- The opcode of a field access. -/
def FieldAccess.opcode : FieldAccess → Opcode
  | getStatic => .getstatic
  | putStatic => .putstatic
  | getField => .getfield
  | putField => .putfield

end Lowering

/-! ### Classes that were there before -/

namespace ClassTable

variable {t t' : ClassTable} {c : ClassInfo} {name : String} {f : FieldInfo}

theorem Ordered.find?_of_suffix (h : Ordered t'.latest) (hsuffix : t.latest <:+ t'.latest)
    (hc : t.find? name = some c) : t'.find? name = some c := by
  have hfind := h.find?_name (hsuffix.subset (mem_of_find? hc))
  rwa [name_of_find? hc] at hfind

theorem Ordered.chainIn_of_suffix {classes older : List ClassInfo} (h : Ordered classes) (hsuffix : older <:+ classes)
    (hc : c ∈ older) : chainIn classes c.superName = chainIn older c.superName := by
  obtain ⟨later, rfl⟩ := hsuffix
  induction later with
  | nil => rfl
  | cons d later ih =>
    have hmem : c ∈ d :: (later ++ older) := List.mem_cons_of_mem _ (List.mem_append_right _ hc)
    -- A search for the superclass of an older class passes by all later ones.
    have hcons : Ordered (d :: (later ++ older)) := h
    exact (hcons.chainIn_cons_superName hmem).trans (ih h.2)

theorem Ordered.findField_of_suffix (h : Ordered t'.latest) (hsuffix : t.latest <:+ t'.latest) (hc : c ∈ t.latest) :
    t'.findField c name = t.findField c name := by
  simp only [findField, h.chainIn_of_suffix hsuffix hc]

theorem Ordered.findMethod_of_suffix {descriptor : String} (h : Ordered t'.latest) (hsuffix : t.latest <:+ t'.latest)
    (hc : c ∈ t.latest) : t'.findMethod c name descriptor = t.findMethod c name descriptor := by
  simp only [findMethod, chain, h.chainIn_of_suffix hsuffix hc]

end ClassTable

/-! ### Instructions -/

namespace Session

open Lowering

variable {loader : Loader} {s s' t : Session} {c : ClassInfo} {classes : List ClassInfo} {lines : List Line}
  {className : String}

theorem field_of_answer (className : String) {owner name : String} {ref : FieldRef}
    (h : s.answer loader className (.field owner name) = (.ok ref, s')) :
    ∃ c f, s'.classes.find? (ClassName.slashed owner) = some c ∧ s'.classes.findField c name = .ok f ∧
      ref = { offset := f.offset, type := f.type, isStatic := f.flags.isStatic } := by
  rw [answer] at h
  obtain ⟨c, hfind, hfield⟩ := answerFor_of_ok h
  cases hf : s'.classes.findField c name with
  | error =>
    rw [hf] at hfield
    cases hfield
  | ok f =>
    rw [hf] at hfield
    exact ⟨c, f, hfind, hf, (Except.ok.inj hfield).symm⟩

theorem method_of_answer (className : String) {owner name descriptor : String} {ref : MethodRef}
    (h : s.answer loader className (.method owner name descriptor) = (.ok ref, s')) :
    ∃ c m, s'.classes.find? (ClassName.slashed owner) = some c ∧ s'.classes.findMethod c name descriptor = .ok m ∧
      ref = methodRef c m := by
  rw [answer] at h
  obtain ⟨c, hfind, hmethod⟩ := answerFor_of_ok h
  cases hm : s'.classes.findMethod c name descriptor with
  | error =>
    rw [hm] at hmethod
    cases hmethod
  | ok m =>
    rw [hm] at hmethod
    exact ⟨c, m, hfind, hm, (Except.ok.inj hmethod).symm⟩

end Session

end JvmAot
