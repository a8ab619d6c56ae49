import JvmAot.Session.ClassInfo
import Mathlib.Data.List.Forall2

/-! # Fields do not overlap

A layout gives out ranges of bytes and keeps up to two holes to give out later. `Packed` says of the ranges
given out, with the holes among them, that they do not overlap, are aligned and lie within the words of the
layout. `packed_allocateBytes`: it stays so when storage is given out, whether it comes from a hole or from
fresh words. `packed_allocateFields` follows for the fields of a class. -/

namespace JvmAot

/-- A range of bytes. -/
structure Span where
  offset : Nat
  bytes : Nat
  deriving DecidableEq, Repr

namespace Span

/-- The end of a range. -/
def stop (r : Span) : Nat :=
  r.offset + r.bytes

/-- Two ranges have no byte in common. -/
def Disjoint (r q : Span) : Prop :=
  r.stop ≤ q.offset ∨ q.stop ≤ r.offset

/-- A range starts at a multiple of its size, or of the size of a word if it is longer. -/
def Aligned (r : Span) : Prop :=
  min r.bytes 4 ∣ r.offset

theorem Disjoint.symm {r q : Span} (h : r.Disjoint q) : q.Disjoint r :=
  h.elim .inr .inl

end Span

/-- Ranges that do not overlap, each aligned and within the first `size` bytes. -/
structure Packed (spans : List Span) (size : Nat) : Prop where
  disjoint : spans.Pairwise Span.Disjoint
  fits : ∀ r ∈ spans, r.Aligned ∧ r.stop ≤ size

namespace Packed
variable {spans more : List Span} {size size' offset : Nat}

theorem nil : Packed [] size :=
  ⟨.nil, by simp⟩

theorem perm (h : Packed spans size) (hp : spans.Perm more) : Packed more size :=
  ⟨(hp.pairwise_iff fun h => h.symm).1 h.disjoint, fun r hr => h.fits r (hp.mem_iff.2 hr)⟩

theorem sublist (h : Packed spans size) (hs : more.Sublist spans) : Packed more size :=
  ⟨h.disjoint.sublist hs, fun r hr => h.fits r (hs.subset hr)⟩

/-- Fresh words after all that was given out. -/
theorem fresh {words n : Nat} (h : Packed spans (4 * words)) (hn : 4 ≤ n) :
    Packed (⟨4 * words, n⟩ :: spans) (4 * words + n) := by
  refine ⟨List.pairwise_cons.2 ⟨fun r hr => .inr (h.fits r hr).2, h.disjoint⟩, fun r hr => ?_⟩
  rcases List.mem_cons.1 hr with rfl | hr
  · exact ⟨by rw [Span.Aligned, Nat.min_eq_right hn]; exact Nat.dvd_mul_right .., Nat.le_refl _⟩
  · exact ⟨(h.fits r hr).1, Nat.le_trans (h.fits r hr).2 (Nat.le_add_right ..)⟩

/-- A range falls into halves. -/
theorem split {n : Nat} (h : Packed (⟨offset, 2 * n⟩ :: spans) size) (hn : 2 * n ≤ 4) :
    Packed (⟨offset, n⟩ :: ⟨offset + n, n⟩ :: spans) size := by
  obtain ⟨hapart, hrest⟩ := List.pairwise_cons.1 h.disjoint
  obtain ⟨haligned, hstop⟩ := h.fits _ (List.mem_cons_self ..)
  rw [Span.Aligned, Nat.min_eq_left hn] at haligned
  have hdvd : n ∣ offset := Nat.dvd_trans (Nat.dvd_mul_left ..) haligned
  refine ⟨List.pairwise_cons.2 ⟨fun r hr => ?_, List.pairwise_cons.2 ⟨fun r hr => ?_, hrest⟩⟩, fun r hr => ?_⟩
  · rcases List.mem_cons.1 hr with rfl | hr
    · exact .inl (Nat.le_refl _)
    · have := hapart r hr
      simp only [Span.Disjoint, Span.stop] at this ⊢
      omega
  · have := hapart r hr
    simp only [Span.Disjoint, Span.stop] at this ⊢
    omega
  · simp only [Span.stop] at hstop
    rcases List.mem_cons.1 hr with rfl | hr
    · refine ⟨?_, by simp only [Span.stop]; omega⟩
      rwa [Span.Aligned, Nat.min_eq_left (show n ≤ 4 by omega)]
    · rcases List.mem_cons.1 hr with rfl | hr
      · refine ⟨?_, by simp only [Span.stop]; omega⟩
        rw [Span.Aligned, Nat.min_eq_left (show n ≤ 4 by omega)]
        exact Nat.dvd_add hdvd (Nat.dvd_refl n)
      · exact h.fits r (List.mem_cons_of_mem _ hr)

end Packed

/-! ### Layouts -/

namespace FieldLayout
variable {l : FieldLayout} {spans : List Span}

/-- The holes in the words of a layout. -/
def holes (l : FieldLayout) : List Span :=
  (l.halfwordHole.map (⟨·, 2⟩)).toList ++ (l.byteHole.map (⟨·, 1⟩)).toList

/-- The ranges given out and the holes share the words of the layout. -/
def Holds (l : FieldLayout) (spans : List Span) : Prop :=
  Packed (l.holes ++ spans) l.size

theorem holds_nil : ({} : FieldLayout).Holds [] :=
  .nil

theorem Holds.packed (h : l.Holds spans) : Packed spans l.size :=
  Packed.sublist h (List.sublist_append_right ..)

theorem Holds.sublist {more : List Span} (h : l.Holds spans) (hs : more.Sublist spans) : l.Holds more :=
  Packed.sublist h (hs.append_left _)

theorem Holds.perm {more : List Span} (h : l.Holds spans) (hp : spans.Perm more) : l.Holds more :=
  Packed.perm h (hp.append_left _)

theorem Holds.allocateWord (h : l.Holds spans) :
    l.allocateWord.2.Holds (⟨l.allocateWord.1, 4⟩ :: spans) :=
  (Packed.fresh h (Nat.le_refl 4)).perm List.perm_middle.symm

theorem Holds.allocateDoubleword (h : l.Holds spans) :
    l.allocateDoubleword.2.Holds (⟨l.allocateDoubleword.1, 8⟩ :: spans) :=
  (Packed.fresh h (show 4 ≤ 8 by decide)).perm List.perm_middle.symm

theorem Holds.allocateHalfword (h : l.Holds spans) :
    l.allocateHalfword.2.Holds (⟨l.allocateHalfword.1, 2⟩ :: spans) := by
  obtain ⟨words, halfwordHole, byteHole⟩ := l
  cases halfwordHole with
  | some offset => exact Packed.perm h List.perm_middle.symm
  | none =>
    -- The second half of a fresh word is the new hole.
    have hword := (Packed.fresh h (Nat.le_refl 4)).split (n := 2) (Nat.le_refl 4)
    exact hword.perm ((List.Perm.swap ..).trans (List.perm_middle.symm.cons _))

theorem byteHole_allocateHalfword (l : FieldLayout) : l.allocateHalfword.2.byteHole = l.byteHole := by
  unfold FieldLayout.allocateHalfword
  split <;> rfl

theorem Holds.allocateByte (h : l.Holds spans) :
    l.allocateByte.2.Holds (⟨l.allocateByte.1, 1⟩ :: spans) := by
  unfold FieldLayout.allocateByte
  split
  case h_1 offset hhole =>
    unfold Holds holes at h ⊢
    rw [hhole] at h
    simpa [size] using h
  case h_2 hhole =>
    -- The second half of a halfword is the new hole, whether or not the halfword was one.
    have hhalf := h.allocateHalfword
    have hbyte := l.byteHole_allocateHalfword
    rw [hhole] at hbyte
    generalize l.allocateHalfword = half at hhalf hbyte ⊢
    obtain ⟨offset, l'⟩ := half
    unfold Holds holes at hhalf ⊢
    rw [hbyte, Option.map_none, Option.toList_none, List.append_nil] at hhalf
    have hsplit := (hhalf.perm List.perm_middle).split (n := 1) (by decide)
    refine hsplit.perm ?_
    simpa using ((List.Perm.swap ..).trans (List.perm_middle.symm.cons _)).trans List.perm_middle.symm

theorem Holds.allocate (h : l.Holds spans) (t : FieldType) :
    (l.allocate t).2.Holds (⟨(l.allocate t).1, t.bytes⟩ :: spans) := by
  unfold FieldLayout.allocate
  rcases t.bytes_cases with hb | hb | hb | hb <;> rw [hb]
  · exact h.allocateByte
  · exact h.allocateHalfword
  · exact h.allocateWord
  · exact h.allocateDoubleword

theorem words_le_allocateHalfword (l : FieldLayout) : l.words ≤ l.allocateHalfword.2.words := by
  unfold allocateHalfword
  split
  · exact Nat.le_refl _
  · exact Nat.le_add_right ..

theorem words_le_allocateByte (l : FieldLayout) : l.words ≤ l.allocateByte.2.words := by
  unfold allocateByte
  split
  · exact Nat.le_refl _
  · exact l.words_le_allocateHalfword

theorem words_le_allocate (l : FieldLayout) (t : FieldType) : l.words ≤ (l.allocate t).2.words := by
  unfold allocate
  rcases t.bytes_cases with hb | hb | hb | hb <;> rw [hb]
  · exact l.words_le_allocateByte
  · exact l.words_le_allocateHalfword
  · exact Nat.le_add_right ..
  · exact Nat.le_add_right ..

end FieldLayout

/-! ### The fields of a class -/

/-- The bytes of a field. -/
def FieldInfo.span (f : FieldInfo) : Span :=
  ⟨f.offset, f.type.bytes⟩

/-- The bytes of the static fields, or of the instance fields, among some fields. -/
def fieldSpans (isStatic : Bool) (fields : List FieldInfo) : List Span :=
  (fields.filter (·.flags.isStatic == isStatic)).map FieldInfo.span

section
variable {owner : String} {decls : List FieldDecl} {fields : List FieldInfo} {layout layout' : FieldLayout}
  {statics statics' : FieldAllocator} {spans pool : List Span}

theorem fieldSpans_cons_of_eq {isStatic : Bool} {f : FieldInfo} (h : f.flags.isStatic = isStatic) :
    fieldSpans isStatic (f :: fields) = f.span :: fieldSpans isStatic fields := by
  simp [fieldSpans, h]

theorem fieldSpans_cons_of_ne {isStatic : Bool} {f : FieldInfo} (h : f.flags.isStatic ≠ isStatic) :
    fieldSpans isStatic (f :: fields) = fieldSpans isStatic fields := by
  simp [fieldSpans, h]

theorem FieldAllocator.layout_of_allocate {t : FieldType} {offset : Nat}
    (h : statics.allocate t = .ok (offset, statics')) :
    statics.layout.allocate t = (offset, statics'.layout) := by
  unfold FieldAllocator.allocate take at h
  split at h
  · cases h
  · cases h; rfl

theorem eq_ok_of_map {f : FieldInfo} {result : Except Failure (List FieldInfo × FieldLayout) × FieldAllocator}
    (h : (result.1.map fun (fields, layout) => (f :: fields, layout), result.2) =
      (.ok (fields, layout'), statics')) :
    ∃ rest, result = (.ok (rest, layout'), statics') ∧ fields = f :: rest := by
  obtain ⟨_ | ⟨rest, layout''⟩, statics''⟩ := result
  · cases h
  · cases h
    exact ⟨rest, rfl, rfl⟩

/-- The first of the fields takes its storage from the pool or from the layout, and the others follow. -/
theorem allocateFields_cons_eq_ok {f : FieldDecl}
    (h : allocateFields owner (f :: decls) layout statics = (.ok (fields, layout'), statics')) :
    ∃ type offset rest, fields = { owner, name := f.name, flags := f.flags, type, offset } :: rest ∧
      FieldType.parse f.descriptor = .ok type ∧
      ((f.flags.isStatic = true ∧ ∃ statics₁, statics.layout.allocate type = (offset, statics₁.layout) ∧
          allocateFields owner decls layout statics₁ = (.ok (rest, layout'), statics')) ∨
        (f.flags.isStatic = false ∧ ∃ layout₁, layout.allocate type = (offset, layout₁) ∧
          allocateFields owner decls layout₁ statics = (.ok (rest, layout'), statics'))) := by
  simp only [allocateFields] at h
  split at h
  · cases h
  · rename_i type htype
    split at h
    · rename_i hstatic
      split at h
      · cases h
      · rename_i offset statics₁ htake
        obtain ⟨rest, hrest, rfl⟩ := eq_ok_of_map h
        exact ⟨type, offset, rest, rfl, htype,
          .inl ⟨hstatic, statics₁, FieldAllocator.layout_of_allocate htake, hrest⟩⟩
    · rename_i hstatic
      obtain ⟨rest, hrest, rfl⟩ := eq_ok_of_map h
      exact ⟨type, _, rest, rfl, htype, .inr ⟨by simpa using hstatic, _, rfl, hrest⟩⟩

/-- A field is as `owner` declares it. -/
structure FieldInfo.Declared (owner : String) (d : FieldDecl) (f : FieldInfo) : Prop where
  owner : f.owner = owner
  name : f.name = d.name
  flags : f.flags = d.flags
  type : FieldType.parse d.descriptor = .ok f.type

theorem declared_allocateFields
    (h : allocateFields owner decls layout statics = (.ok (fields, layout'), statics')) :
    List.Forall₂ (FieldInfo.Declared owner) decls fields := by
  induction decls generalizing fields layout statics with
  | nil => cases h; exact .nil
  | cons f decls ih =>
    obtain ⟨type, offset, rest, rfl, htype, ⟨-, _, -, hrest⟩ | ⟨-, _, -, hrest⟩⟩ := allocateFields_cons_eq_ok h
    · exact .cons ⟨rfl, rfl, rfl, htype⟩ (ih hrest)
    · exact .cons ⟨rfl, rfl, rfl, htype⟩ (ih hrest)

theorem holds_allocateFields (h : allocateFields owner decls layout statics = (.ok (fields, layout'), statics'))
    (hlayout : layout.Holds spans) (hpool : statics.layout.Holds pool) :
    layout'.Holds (fieldSpans false fields ++ spans) ∧ layout.words ≤ layout'.words ∧
      statics'.layout.Holds (fieldSpans true fields ++ pool) := by
  induction decls generalizing fields layout statics spans pool with
  | nil =>
    cases h
    exact ⟨hlayout, Nat.le_refl _, hpool⟩
  | cons f decls ih =>
    obtain ⟨type, offset, rest, rfl, -, ⟨hf, statics₁, htake, hrest⟩ | ⟨hf, layout₁, htake, hrest⟩⟩ :=
      allocateFields_cons_eq_ok h
    · have hpool₁ := hpool.allocate type
      rw [htake] at hpool₁
      obtain ⟨hinstance, hwords, hstatic⟩ := ih hrest hlayout hpool₁
      rw [fieldSpans_cons_of_ne (by simp [hf]), fieldSpans_cons_of_eq hf]
      exact ⟨hinstance, hwords, hstatic.perm List.perm_middle⟩
    · have hlayout₁ := hlayout.allocate type
      have hwords₁ := layout.words_le_allocate type
      rw [htake] at hlayout₁ hwords₁
      obtain ⟨hinstance, hwords, hstatic⟩ := ih hrest hlayout₁ hpool
      rw [fieldSpans_cons_of_eq hf, fieldSpans_cons_of_ne (by simp [hf])]
      exact ⟨hinstance.perm List.perm_middle, Nat.le_trans hwords₁ hwords, hstatic⟩

/-- What a failure leaves in the pool is not given out again. -/
theorem pool_allocateFields (hpool : statics.layout.Holds pool) :
    (allocateFields owner decls layout statics).2.layout.Holds pool := by
  induction decls generalizing layout statics with
  | nil => exact hpool
  | cons f decls ih =>
    simp only [allocateFields]
    split
    · exact hpool
    · rename_i type _
      split
      · split
        · exact hpool
        · rename_i htake
          have hpool₁ := hpool.allocate type
          rw [FieldAllocator.layout_of_allocate htake] at hpool₁
          exact ih (hpool₁.sublist (List.sublist_cons_self ..))
      · exact ih hpool

end

end JvmAot
