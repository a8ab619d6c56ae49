import Mathlib.Algebra.Order.Ring.Int
import Mathlib.Data.List.Nodup
import Mathlib.Data.List.Perm.Subperm
import JvmAot.Proofs.Layout.Family
import JvmAot.Proofs.Layout.Fields

/-! # Fields are packed without loss

What a layout has given out and the holes that it keeps share its words (`FieldLayout.Holds`). `FieldLayout.Fills` adds
that their sizes sum up to the size of the words, and then nothing is left over: every byte of the words is in exactly
one of them (`Fills.perm_range`). As there are at most two holes, of a halfword and of a byte, no order of requests makes
a layout waste more than three bytes. -/

namespace JvmAot

/-! ### Bytes of ranges -/

/-- The bytes of a range. -/
def Span.range (r : Span) : List Nat :=
  List.range' r.offset r.bytes

theorem Span.mem_range {r : Span} {b : Nat} : b ∈ r.range ↔ r.offset ≤ b ∧ b < r.stop := by
  simp [range, stop]

theorem Span.Disjoint.disjoint_range {r q : Span} (h : r.Disjoint q) : r.range.Disjoint q.range := by
  intro b hr hq
  rw [mem_range] at hr hq
  rcases h with h | h <;> omega

/-- The sum of the sizes of some ranges. -/
def totalBytes (spans : List Span) : Nat :=
  (spans.map (·.bytes)).sum

theorem totalBytes_append (spans more : List Span) : totalBytes (spans ++ more) = totalBytes spans + totalBytes more := by
  simp [totalBytes]

theorem length_flatMap_range (spans : List Span) : (spans.flatMap Span.range).length = totalBytes spans := by
  simp [totalBytes, List.length_flatMap, Span.range]

namespace Packed

variable {spans : List Span} {size : Nat}

theorem nodup_flatMap_range (h : Packed spans size) : (spans.flatMap Span.range).Nodup :=
  List.nodup_flatMap.2 ⟨fun _ _ => List.nodup_range', h.disjoint.imp Span.Disjoint.disjoint_range⟩

/-- Ranges with as many bytes as there are leave none out. -/
theorem perm_range (h : Packed spans size) (htotal : totalBytes spans = size) :
    (spans.flatMap Span.range).Perm (List.range size) := by
  have hsubset : spans.flatMap Span.range ⊆ List.range size := by
    intro b hb
    obtain ⟨r, hr, hb⟩ := List.mem_flatMap.1 hb
    exact List.mem_range.2 (Nat.lt_of_lt_of_le (Span.mem_range.1 hb).2 (h.fits r hr).2)
  refine (h.nodup_flatMap_range.subperm hsubset).perm_of_length_le ?_
  rw [length_flatMap_range, htotal, List.length_range]

end Packed

/-! ### Requests -/

/-- What a field allocator is asked for. -/
inductive FieldRequest where
  | byte
  | halfword
  | word
  | doubleword
  /-- Storage for a field of a given type. -/
  | field (type : FieldType)
  deriving DecidableEq, Repr

namespace FieldRequest

/-- The size of what is asked for. -/
def bytes : FieldRequest → Nat
  | byte => 1
  | halfword => 2
  | word => 4
  | doubleword => 8
  | field type => type.bytes

/-- How a layout gives it out. -/
def allocation : FieldRequest → FieldLayout → Nat × FieldLayout
  | byte => FieldLayout.allocateByte
  | halfword => FieldLayout.allocateHalfword
  | word => FieldLayout.allocateWord
  | doubleword => FieldLayout.allocateDoubleword
  | field type => (·.allocate type)

/-- A field is asked for by its size. -/
theorem allocation_cases (q : FieldRequest) :
    (q.bytes = 1 ∧ q.allocation = FieldLayout.allocateByte) ∨
      (q.bytes = 2 ∧ q.allocation = FieldLayout.allocateHalfword) ∨
      (q.bytes = 4 ∧ q.allocation = FieldLayout.allocateWord) ∨
      (q.bytes = 8 ∧ q.allocation = FieldLayout.allocateDoubleword) := by
  cases q with
  | byte => exact .inl ⟨rfl, rfl⟩
  | halfword => exact .inr (.inl ⟨rfl, rfl⟩)
  | word => exact .inr (.inr (.inl ⟨rfl, rfl⟩))
  | doubleword => exact .inr (.inr (.inr ⟨rfl, rfl⟩))
  | field type =>
    have hallocation : (field type).allocation = (·.allocateBytes type.bytes) := rfl
    rw [hallocation]
    rcases type.bytes_cases with hb | hb | hb | hb <;> rw [hb]
    · exact .inl ⟨hb, rfl⟩
    · exact .inr (.inl ⟨hb, rfl⟩)
    · exact .inr (.inr (.inl ⟨hb, rfl⟩))
    · exact .inr (.inr (.inr ⟨hb, rfl⟩))

end FieldRequest

/-! ### Layouts -/

namespace FieldLayout

variable {l : FieldLayout} {spans : List Span} {b : Nat}

/-- The size of the holes. -/
def slack (l : FieldLayout) : Nat :=
  (if l.halfwordHole.isSome then 2 else 0) + if l.byteHole.isSome then 1 else 0

theorem totalBytes_holes (l : FieldLayout) : totalBytes l.holes = l.slack := by
  obtain ⟨words, _ | half, _ | byte⟩ := l <;> rfl

theorem slack_le (l : FieldLayout) : l.slack ≤ 3 := by
  unfold slack
  split <;> split <;> decide

/-- What is given out comes from the holes or makes the words more. -/
theorem size_allocation (q : FieldRequest) (l : FieldLayout) :
    (q.allocation l).2.size + l.slack = l.size + (q.allocation l).2.slack + q.bytes := by
  rcases q.allocation_cases with ⟨hb, hq⟩ | ⟨hb, hq⟩ | ⟨hb, hq⟩ | ⟨hb, hq⟩ <;> rw [hb, hq]
  · obtain ⟨words, _ | half, _ | byte⟩ := l <;> simp [allocateByte, allocateHalfword, allocateWord, size, slack]
    omega
  · obtain ⟨words, _ | half, _ | byte⟩ := l <;> simp [allocateHalfword, allocateWord, size, slack]
    all_goals omega
  · show 4 * (l.words + 1) + l.slack = 4 * l.words + l.slack + 4
    omega
  · show 4 * (l.words + 2) + l.slack = 4 * l.words + l.slack + 8
    omega

/-- Words and doublewords leave the holes as they are. -/
theorem holes_allocation {q : FieldRequest} (hq : 4 ≤ q.bytes) (l : FieldLayout) :
    (q.allocation l).2.holes = l.holes := by
  rcases q.allocation_cases with ⟨hb, -⟩ | ⟨hb, -⟩ | ⟨-, heq⟩ | ⟨-, heq⟩
  · omega
  · omega
  · rw [heq]
    rfl
  · rw [heq]
    rfl

theorem Holds.allocation (h : l.Holds spans) (q : FieldRequest) :
    (q.allocation l).2.Holds (⟨(q.allocation l).1, q.bytes⟩ :: spans) := by
  rcases q.allocation_cases with ⟨hb, hq⟩ | ⟨hb, hq⟩ | ⟨hb, hq⟩ | ⟨hb, hq⟩ <;> rw [hb, hq]
  · exact h.allocateByte
  · exact h.allocateHalfword
  · exact h.allocateWord
  · exact h.allocateDoubleword

/-- The ranges given out and the holes share the words of the layout, and have the size of all of them. -/
structure Fills (l : FieldLayout) (spans : List Span) : Prop where
  holds : l.Holds spans
  total : totalBytes spans + l.slack = l.size

/-- The bytes of the words that are in none of the ranges. -/
def unused (l : FieldLayout) (spans : List Span) : List Nat :=
  (List.range l.size).filter fun b => ∀ r ∈ spans, b ∉ r.range

namespace Fills

theorem empty : ({} : FieldLayout).Fills [] :=
  ⟨holds_nil, rfl⟩

/-- What is given out next comes last. -/
theorem allocation (h : l.Fills spans) (q : FieldRequest) :
    (q.allocation l).2.Fills (spans ++ [⟨(q.allocation l).1, q.bytes⟩]) := by
  refine ⟨(h.holds.allocation q).perm (List.perm_append_singleton ..).symm, ?_⟩
  have htotal := h.total
  have hsize := size_allocation q l
  have hlast : totalBytes [(⟨(q.allocation l).1, q.bytes⟩ : Span)] = q.bytes := Nat.add_zero _
  rw [totalBytes_append, hlast]
  omega

/-- Every byte is in one of the holes or in one of the ranges, and in one only. -/
theorem perm_range (h : l.Fills spans) : ((l.holes ++ spans).flatMap Span.range).Perm (List.range l.size) := by
  refine Packed.perm_range h.holds ?_
  rw [totalBytes_append, totalBytes_holes, Nat.add_comm]
  exact h.total

theorem unused_perm (h : l.Fills spans) : (l.unused spans).Perm (l.holes.flatMap Span.range) := by
  have hnodup := h.holds.nodup_flatMap_range
  rw [List.flatMap_append] at hnodup
  -- The bytes of the holes are in no range, and those of the ranges are in one.
  have hholes : (l.holes.flatMap Span.range).filter (fun b => ∀ r ∈ spans, b ∉ r.range) = l.holes.flatMap Span.range := by
    refine List.filter_eq_self.2 fun b hb => decide_eq_true fun r hr hbr => ?_
    exact (List.nodup_append.1 hnodup).2.2 b hb b (List.mem_flatMap_of_mem hr hbr) rfl
  have hspans : (spans.flatMap Span.range).filter (fun b => ∀ r ∈ spans, b ∉ r.range) = [] := by
    refine List.filter_eq_nil_iff.2 fun b hb hfree => ?_
    obtain ⟨r, hr, hbr⟩ := List.mem_flatMap.1 hb
    exact of_decide_eq_true hfree r hr hbr
  have hperm := (h.perm_range.filter fun b => ∀ r ∈ spans, b ∉ r.range).symm
  rwa [List.flatMap_append, List.filter_append, hholes, hspans, List.append_nil] at hperm

theorem mem_unused (h : l.Fills spans) : b ∈ l.unused spans ↔ ∃ hole ∈ l.holes, b ∈ hole.range := by
  rw [h.unused_perm.mem_iff, List.mem_flatMap]

theorem length_unused (h : l.Fills spans) : (l.unused spans).length = l.slack := by
  rw [h.unused_perm.length_eq, length_flatMap_range, totalBytes_holes]

end Fills

end FieldLayout

/-! ### Families of field allocators -/

/-- Field allocators. -/
def fieldAllocators : AllocatorScheme FieldAllocator FieldLayout FieldRequest Nat where
  new := {}
  child := FieldAllocator.child
  serve q a := a.take q.allocation
  finish := FieldAllocator.finish

namespace fieldAllocators

open AllocatorScheme

/-- A field allocator with its past. -/
abbrev Owner := Member FieldAllocator FieldLayout FieldRequest Nat

variable {m : Owner} {i : Nat} {q : FieldRequest} {a a' : FieldAllocator} {l : FieldLayout} {offset : Nat}

theorem take_eq_ok (h : a.take q.allocation = .ok (offset, a')) :
    ¬ a.isSealed ∧ offset = (q.allocation a.layout).1 ∧ a'.layout = (q.allocation a.layout).2 := by
  unfold FieldAllocator.take at h
  split at h
  · cases h
  · cases h
    exact ⟨‹_›, rfl, rfl⟩

theorem finish_eq_ok (h : a.finish = .ok (l, a')) : l = a.layout ∧ a'.layout = a.layout ∧ a'.isSealed = true := by
  unfold FieldAllocator.finish at h
  split at h
  · cases h
  · cases h
    exact ⟨rfl, rfl, rfl⟩

theorem lawful : fieldAllocators.Lawful where
  child := ⟨_, rfl⟩
  finish h := by
    obtain ⟨-, -, hsealed⟩ := finish_eq_ok h
    exact ⟨fun q => ⟨(Cause.fieldsSealed : Failure), if_pos hsealed⟩, (Cause.fieldsSealed : Failure), if_pos hsealed⟩

/-- The layout that an allocator has made so far, of which it counts the words. -/
def layout (m : Owner) : FieldLayout :=
  m.state.layout

/-- The fields that have storage in the layout, inherited ones included. -/
def fields (m : Owner) : List Span :=
  m.all.map fun (q, offset) => ⟨offset, q.bytes⟩

theorem fields_gives (m : Owner) (q : FieldRequest) (offset : Nat) (a : FieldAllocator) :
    fields (m.gives q offset a) = fields m ++ [⟨offset, q.bytes⟩] := by
  simp [fields, Member.all, Member.gives]

theorem fields_heir (m : Owner) (p : Nat) (a : FieldAllocator) : fields (m.heir p a) = fields m := by
  simp [fields, Member.all, Member.heir]

/-- The fields fill the words of the layout up to the holes, also of the layout that can be continued. -/
theorem invariant_fills : fieldAllocators.Invariant fun m =>
    (layout m).Fills (fields m) ∧ ∀ l, m.result = some l → l = layout m ∧ m.state.isSealed where
  new := ⟨.empty, by simp⟩
  child {m p l a} h hresult hchild := by
    cases hchild
    refine ⟨?_, by simp [Member.heir]⟩
    rw [fields_heir]
    exact (h.2 l hresult).1 ▸ h.1
  serve {m q offset a} h hserve := by
    obtain ⟨hopen, rfl, hlayout⟩ := take_eq_ok hserve
    refine ⟨?_, fun l hl => absurd (h.2 l hl).2 hopen⟩
    have hnext := h.1.allocation q
    rw [fields_gives]
    exact (congrArg (FieldLayout.Fills · _) hlayout).mpr hnext
  finish {m l a} h hfinish := by
    obtain ⟨rfl, hlayout, hsealed⟩ := finish_eq_ok hfinish
    have hsame : layout (m.closes m.state.layout a) = layout m := hlayout
    refine ⟨?_, ?_⟩
    · rw [hsame]
      exact h.1
    · rintro _ ⟨⟩
      exact ⟨hsame.symm, hsealed⟩

theorem holes_serve {calls : List (Call FieldRequest)} {m' : Owner} (hq : 4 ≤ q.bytes)
    (hm : (fieldAllocators.run calls)[i]? = some m)
    (hm' : (fieldAllocators.run (calls ++ [.serve i q]))[i]? = some m') : (layout m').holes = (layout m).holes := by
  have hmoves := lawful.moves (fieldAllocators.run calls) (.serve i q)
  rw [run_concat] at hm'
  generalize fieldAllocators.after (fieldAllocators.run calls) (.serve i q) = f at hm' hmoves
  cases hmoves with
  | fails =>
    rw [hm] at hm'
    cases hm'
    rfl
  | serve hown hserve =>
    rw [hm] at hown
    cases hown
    rw [List.getElem?_set_self (List.getElem?_eq_some_iff.1 hm).1] at hm'
    cases hm'
    obtain ⟨-, -, hlayout⟩ := take_eq_ok hserve
    exact (congrArg FieldLayout.holes hlayout).trans (FieldLayout.holes_allocation hq _)

/-- Whatever was asked of the allocators of a family, and in whatever order, an allocator has lost nothing: its words
have the size of its fields, inherited ones included, and of its holes. The bytes that are in no field are exactly those
of the holes, at most three, and no byte is in two fields. Asking for a word or a doubleword adds no unused byte. -/
theorem packs_without_loss (calls : List (Call FieldRequest)) (hm : (fieldAllocators.run calls)[i]? = some m) :
    4 * (layout m).words = totalBytes (fields m) + (if (layout m).halfwordHole.isSome then 2 else 0) +
        (if (layout m).byteHole.isSome then 1 else 0) ∧
      (∀ b, b ∈ (layout m).unused (fields m) ↔ ∃ hole ∈ (layout m).holes, b ∈ hole.range) ∧
      ((layout m).unused (fields m)).length ≤ 3 ∧
      ((fields m).flatMap Span.range).Nodup ∧ (∀ r ∈ fields m, r.stop ≤ 4 * (layout m).words) ∧
      (∀ l, m.result = some l → l = layout m) ∧
      ∀ q m', 4 ≤ q.bytes → (fieldAllocators.run (calls ++ [.serve i q]))[i]? = some m' →
        (layout m').unused (fields m') ⊆ (layout m).unused (fields m) := by
  obtain ⟨hfills, hresult⟩ := invariant_fills.run lawful calls m (List.mem_of_getElem? hm)
  have hpacked := hfills.holds.packed
  refine ⟨?_, fun b => hfills.mem_unused, ?_, hpacked.nodup_flatMap_range, fun r hr => (hpacked.fits r hr).2,
    fun l hl => (hresult l hl).1, fun q m' hq hm' b hb => ?_⟩
  · have htotal := hfills.total
    rw [FieldLayout.slack, ← Nat.add_assoc] at htotal
    exact htotal.symm
  · rw [hfills.length_unused]
    exact FieldLayout.slack_le _
  · obtain ⟨hfills', -⟩ := invariant_fills.run lawful _ m' (List.mem_of_getElem? hm')
    rw [hfills'.mem_unused, holes_serve hq hm hm'] at hb
    exact hfills.mem_unused.2 hb

/-- A class with a byte, a halfword and a doubleword field, which leave a hole of one byte. Its subclass takes that for a
byte and splits a fresh word for another one. -/
def family : List (Call FieldRequest) :=
  [.new, .serve 0 .byte, .serve 0 (.field { base := .short }), .serve 0 .doubleword, .child 0, .finish 0, .serve 0 .word,
    .child 0, .serve 1 .byte, .serve 1 (.field { base := .boolean })]

theorem family_packed :
    ∃ m, (fieldAllocators.run family)[1]? = some m ∧ layout m = ⟨4, some 14, some 13⟩ ∧
      fields m = [⟨0, 1⟩, ⟨2, 2⟩, ⟨4, 8⟩, ⟨1, 1⟩, ⟨12, 1⟩] ∧ (layout m).unused (fields m) = [13, 14, 15] ∧
      4 * (layout m).words = totalBytes (fields m) + 2 + 1 ∧ ((fields m).flatMap Span.range).Nodup := by
  obtain ⟨m, hm⟩ := Option.isSome_iff_exists.1 (show ((fieldAllocators.run family)[1]?).isSome by decide +kernel)
  obtain ⟨hsize, -, -, hnodup, -⟩ := packs_without_loss family hm
  obtain ⟨hlayout, hfields, hunused⟩ : layout m = ⟨4, some 14, some 13⟩ ∧
      fields m = [⟨0, 1⟩, ⟨2, 2⟩, ⟨4, 8⟩, ⟨1, 1⟩, ⟨12, 1⟩] ∧ (layout m).unused (fields m) = [13, 14, 15] := by
    have hall : ∀ m ∈ (fieldAllocators.run family)[1]?, layout m = ⟨4, some 14, some 13⟩ ∧
        fields m = [⟨0, 1⟩, ⟨2, 2⟩, ⟨4, 8⟩, ⟨1, 1⟩, ⟨12, 1⟩] ∧ (layout m).unused (fields m) = [13, 14, 15] := by
      decide +kernel
    exact hall m hm
  refine ⟨m, hm, hlayout, hfields, hunused, ?_, hnodup⟩
  rw [hlayout] at hsize ⊢
  exact hsize

end fieldAllocators

end JvmAot
