import JvmAot.Lowering.Instruction
import JvmAot.Proofs.Lowering.Templates

/-! # Fields and array elements

A value is stored in a static field, in a field of an object or in an element of an array. For each of the
three, the code that stores it takes it and its place off the operand stack and writes its own bytes and no
others, and the code that loads it puts it back, cut down to its type. -/

namespace JvmAot

open Template

/-! ### Values in memory -/

/-- A word cut down to a type and extended again. -/
def BaseType.truncate : BaseType → Word → Word
  | boolean, w => (w.setWidth 8).setWidth 32
  | byte, w => (w.setWidth 8).signExtend 32
  | char, w => (w.setWidth 16).setWidth 32
  | short, w => (w.setWidth 16).signExtend 32
  | int, w | float, w | long, w | double, w | reference, w | other _, w => w

namespace FieldType
variable {t : FieldType}

/-- What is left of a value when it was stored with a type. -/
def truncate (t : FieldType) : Operand → Operand
  | .word w => .word (if t.isReference then w else t.base.truncate w)
  | .wide v => .wide v

/-- The bytes of a value. The low word of a wide value comes first. -/
def store (t : FieldType) : Operand → List Byte
  | .word w => lowBytes t.bytes w
  | .wide v => lowBytes 4 (v.setWidth 32) ++ lowBytes 4 ((v >>> 32).setWidth 32)

theorem bytes_of_words (h : t.words = 2) : t.bytes = 8 := by
  unfold words at h
  split at h
  · assumption
  · cases h

theorem bytes_le (t : FieldType) : t.bytes ≤ 8 := by
  rcases t.bytes_cases with h | h | h | h <;> rw [h] <;> decide

theorem length_store {value : Operand} (h : value.words.length = t.words) :
    (t.store value).length = t.bytes := by
  cases value with
  | word w => exact length_lowBytes ..
  | wide v => rw [bytes_of_words h.symm]; simp [store]

theorem bytes_of_isReference (h : t.isReference) : t.bytes = 4 :=
  if_pos h

theorem bytes_of_not_isReference (h : ¬ t.isReference) : t.bytes = t.base.bytes :=
  if_neg h

/-- A value of one word has a store of its size. -/
theorem storeOp?_of_words (h : t.words = 1) :
    ∃ op, t.storeOp? = some op ∧ op.storeSize? = some t.bytes := by
  unfold storeOp?
  rcases t.bytes_cases with hb | hb | hb | hb
  · rw [hb]; exact ⟨.sb, rfl, rfl⟩
  · rw [hb]; exact ⟨.sh, rfl, rfl⟩
  · rw [hb]; exact ⟨.sw, rfl, rfl⟩
  · rw [words, if_pos hb] at h; cases h

/-- A value of one word has a load that cuts it down to its type. -/
theorem loadOp?_of_words (h : t.words = 1) :
    ∃ op, t.loadOp? = some op ∧ ∀ {m : Memory} {a w}, m.Has a (lowBytes t.bytes w) →
      op.load? m a = some (if t.isReference then w else t.base.truncate w) := by
  by_cases href : t.isReference
  · have hb := bytes_of_isReference href
    refine ⟨.lw, by rw [loadOp?, hb]; rfl, fun hm => ?_⟩
    rw [hb] at hm
    rw [if_pos href, Mnemonic.load?, hm.word]
  · have hb := bytes_of_not_isReference href
    have hs : t.isSigned = t.base.isSigned := by simp [isSigned, href]
    rw [words, hb] at h
    rw [loadOp?, hb, hs]
    simp only [if_neg href]
    generalize t.base = b at h ⊢
    cases b with
    | boolean => exact ⟨.lbu, rfl, fun hm => by rw [Mnemonic.load?, hm.byte]; rfl⟩
    | byte => exact ⟨.lb, rfl, fun hm => by rw [Mnemonic.load?, hm.byte]; rfl⟩
    | char => exact ⟨.lhu, rfl, fun hm => by rw [Mnemonic.load?, hm.halfword]; rfl⟩
    | short => exact ⟨.lh, rfl, fun hm => by rw [Mnemonic.load?, hm.halfword]; rfl⟩
    | int | float | reference | other => exact ⟨.lw, rfl, fun hm => by rw [Mnemonic.load?, hm.word]; rfl⟩
    | long | double => cases h

theorem ops_of_words (h : t.words = 2) : t.storeOp? = none ∧ t.loadOp? = none := by
  rw [storeOp?, loadOp?, bytes_of_words h]
  cases t.isSigned <;> exact ⟨rfl, rfl⟩

end FieldType

/-- The type of a value that is no array. -/
def BaseType.fieldType (b : BaseType) : FieldType where
  base := b

theorem BaseType.bytes_fieldType (b : BaseType) : b.fieldType.bytes = b.bytes := by
  cases b <;> rfl

theorem BaseType.isSigned_fieldType (b : BaseType) : b.fieldType.isSigned = b.isSigned := by
  cases b <;> rfl

/-! ### Templates -/

namespace InFrame

variable {A : Area} {heap : Memory} {base stack : List Word} {m : Machine} {r : Register} {Q : Machine → Prop}
  {symbols : String → Option Word} {code : List Instr} {t : FieldType} {a w object : Word} {offset : Int}
  {value : Operand}

theorem wp_readOutside {op : Mnemonic} {p : Register} (ha : m.get p + BitVec.ofInt 32 offset = a)
    (hop : op.load? m.mem a = some w) (hQ : wp symbols code Q (m.set r w)) :
    wp symbols (.load op r offset p :: code) Q m :=
  wp_step (by rw [Machine.execute, ha, hop]; rfl) hQ

theorem add_offset_four (ha : object + BitVec.ofInt 32 offset = a) :
    object + BitVec.ofInt 32 (offset + 4) = a + 4#32 := by
  rw [BitVec.ofInt_add, ← BitVec.add_assoc, ha]
  rfl

theorem outside_four (hout : ∀ k < 8, ¬ A.Contains (a + BitVec.ofNat 32 k)) :
    ∀ k < 4, ¬ A.Contains (a + 4#32 + BitVec.ofNat 32 k) := by
  intro k hk
  rw [BitVec.add_assoc, show 4#32 + BitVec.ofNat 32 k = BitVec.ofNat 32 (4 + k) from (BitVec.ofNat_add ..).symm]
  exact hout _ (by omega)

/-- The two words of a wide value are written one after the other. -/
theorem write_wide (t : FieldType) (v : BitVec 64) :
    (heap.write a (lowBytes 4 (v.setWidth 32))).write (a + 4#32) (lowBytes 4 ((v >>> 32).setWidth 32)) =
      heap.write a (t.store (.wide v)) := by
  rw [FieldType.store, ← Memory.write_append (by simp), length_lowBytes]

theorem wp_putField (h : InFrame A heap base (value.words ++ object :: stack) m)
    (hvalue : value.words.length = t.words) (ha : object + BitVec.ofInt 32 offset = a)
    (hout : ∀ k < t.bytes, ¬ A.Contains (a + BitVec.ofNat 32 k)) :
    wp symbols (putField offset t) (InFrame A (heap.write a (t.store value)) base stack) m := by
  unfold putField
  cases value with
  | word w =>
    obtain ⟨op, hop, hsize⟩ := FieldType.storeOp?_of_words hvalue.symm
    rw [hop]
    refine h.wp_peek (i := 1) rfl rfl ?_
    have h₁ := h.set (r := .t1) object (by decide) (by decide)
    refine h₁.wp_peek (i := 0) rfl rfl ?_
    have h₂ := h₁.set (r := .t0) w (by decide) (by decide)
    refine h₂.wp_writeOutside hsize (by simpa using ha) hout fun m₃ h₃ _ => ?_
    rw [Machine.get_set_self (by decide)] at h₃
    exact h₃.wp_drop (n := 2) rfl (by simp [Operand.words]) fun m₄ h₄ _ _ => wp_nil.2 h₄
  | wide v =>
    rw [FieldType.bytes_of_words hvalue.symm] at hout
    rw [(FieldType.ops_of_words hvalue.symm).1]
    refine h.wp_peek (i := 2) rfl rfl ?_
    have h₁ := h.set (r := .t1) object (by decide) (by decide)
    refine h₁.wp_peek (i := 0) rfl rfl ?_
    have h₂ := h₁.set (r := .t0) (v.setWidth 32) (by decide) (by decide)
    refine h₂.wp_writeOutside (n := 4) rfl (by simpa using ha) (fun k hk => hout k (by omega)) fun m₃ h₃ hget₃ => ?_
    rw [Machine.get_set_self (by decide)] at h₃
    refine h₃.wp_peek (i := 1) rfl rfl ?_
    have h₄ := h₃.set (r := .t0) ((v >>> 32).setWidth 32) (by decide) (by decide)
    refine h₄.wp_writeOutside (n := 4) rfl (by simpa [hget₃] using add_offset_four ha) (outside_four hout)
      fun m₅ h₅ _ => ?_
    rw [Machine.get_set_self (by decide), write_wide t] at h₅
    exact h₅.wp_drop (n := 3) rfl (by simp [Operand.words, longWords]) fun m₆ h₆ _ _ => wp_nil.2 h₆

theorem wp_putStatic {pool : String} (h : InFrame A heap base (value.words ++ stack) m)
    (hvalue : value.words.length = t.words) (hpool : symbols pool = some object)
    (ha : object + BitVec.ofInt 32 offset = a) (hout : ∀ k < t.bytes, ¬ A.Contains (a + BitVec.ofNat 32 k)) :
    wp symbols (putStatic pool offset t) (InFrame A (heap.write a (t.store value)) base stack) m := by
  unfold putStatic
  refine wp_cons.2 ⟨m.set .t1 object, by rw [Machine.execute, hpool]; rfl, wp_append.2 ?_⟩
  have h₁ := h.set (r := .t1) object (by decide) (by decide)
  cases value with
  | word w =>
    obtain ⟨op, hop, hsize⟩ := FieldType.storeOp?_of_words hvalue.symm
    rw [hop]
    refine wp_mono (h₁.wp_pop (by decide) (by decide) (by decide)) fun m₂ h₂ => ?_
    obtain ⟨h₂, hw, hkeep₂⟩ := h₂
    refine h₂.wp_writeOutside hsize ?_ hout fun m₃ h₃ _ => wp_nil.2 (hw ▸ h₃)
    rw [hkeep₂ _ (by decide) (by decide), Machine.get_set_self (by decide), ha]
  | wide v =>
    rw [FieldType.bytes_of_words hvalue.symm] at hout
    rw [(FieldType.ops_of_words hvalue.symm).1]
    refine wp_mono (h₁.wp_pop (by decide) (by decide) (by decide)) fun m₂ h₂ => ?_
    obtain ⟨h₂, hlow, hkeep₂⟩ := h₂
    have ht₂ : m₂.get .t1 = object := by
      rw [hkeep₂ _ (by decide) (by decide), Machine.get_set_self (by decide)]
    refine h₂.wp_writeOutside (n := 4) rfl (ht₂ ▸ ha) (fun k hk => hout k (by omega)) fun m₃ h₃ hget₃ => ?_
    refine wp_append.2 (wp_mono (h₃.wp_pop (by decide) (by decide) (by decide)) fun m₄ h₄ => ?_)
    obtain ⟨h₄, hhigh, hkeep₄⟩ := h₄
    have ht₄ : m₄.get .t1 = object := by rw [hkeep₄ _ (by decide) (by decide), hget₃, ht₂]
    refine h₄.wp_writeOutside (n := 4) rfl (by rw [ht₄, add_offset_four ha]) (outside_four hout)
      fun m₅ h₅ _ => wp_nil.2 ?_
    rwa [hlow, hhigh, write_wide t] at h₅

/-- What memory holds of a value, as seen by code that runs in a frame. -/
theorem word_of_has_wide {v : BitVec 64} (h : InFrame A heap base stack m) (hhas : heap.Has a (t.store (.wide v)))
    (hout : ∀ k < 8, ¬ A.Contains (a + BitVec.ofNat 32 k)) :
    m.mem.word a = v.setWidth 32 ∧ m.mem.word (a + 4#32) = (v >>> 32).setWidth 32 := by
  have hm := h.has hhas (by simpa [FieldType.store] using hout)
  obtain ⟨hlow, hhigh⟩ := Memory.has_append.1 hm
  rw [length_lowBytes] at hhigh
  exact ⟨hlow.word, hhigh.word⟩

theorem wp_getField (h : InFrame A heap base (object :: stack) m) (hvalue : value.words.length = t.words)
    (ha : object + BitVec.ofInt 32 offset = a) (hhas : heap.Has a (t.store value))
    (hout : ∀ k < t.bytes, ¬ A.Contains (a + BitVec.ofNat 32 k))
    (room : t.words + stack.length + base.length ≤ A.capacity) :
    wp symbols (getField offset t) (InFrame A heap base ((t.truncate value).words ++ stack)) m := by
  unfold getField
  refine h.wp_peek (i := 0) rfl rfl ?_
  have h₁ := h.set (r := .t1) object (by decide) (by decide)
  cases value with
  | word w =>
    obtain ⟨op, hop, hload⟩ := FieldType.loadOp?_of_words hvalue.symm
    rw [hop]
    refine wp_readOutside (by simpa using ha) (hload (h₁.has hhas (by simpa [FieldType.store] using hout))) ?_
    refine (h₁.set (r := .t0) _ (by decide) (by decide)).wp_poke (i := 0) rfl (by simp) fun m₂ h₂ _ => wp_nil.2 ?_
    rw [Machine.get_set_self (by decide)] at h₂
    exact h₂
  | wide v =>
    rw [FieldType.bytes_of_words hvalue.symm] at hout
    have hwords : t.words = 2 := hvalue.symm
    rw [(FieldType.ops_of_words hwords).2]
    refine h₁.wp_grow (n := 1) rfl (by simp; omega) fun m₂ junk hjunk h₂ hget₂ => ?_
    obtain ⟨x, rfl⟩ := List.length_eq_one_iff.1 hjunk
    have ht₂ : m₂.get .t1 = object := by rw [hget₂ _ (by decide), Machine.get_set_self (by decide)]
    refine wp_readOutside (by rw [ht₂, ha]) (congrArg some (h₂.word_of_has_wide hhas hout).1) ?_
    refine (h₂.set (r := .t0) _ (by decide) (by decide)).wp_poke (i := 0) rfl (by simp) fun m₃ h₃ hget₃ => ?_
    have ht₃ : m₃.get .t1 = object := by rw [hget₃, Machine.get_set_of_ne (by decide), ht₂]
    refine wp_readOutside (by rw [ht₃, add_offset_four ha]) (congrArg some (h₃.word_of_has_wide hhas hout).2) ?_
    refine (h₃.set (r := .t0) _ (by decide) (by decide)).wp_poke (i := 1) rfl (by simp) fun m₄ h₄ _ => wp_nil.2 ?_
    rw [Machine.get_set_self (by decide), Machine.get_set_self (by decide)] at h₄
    exact h₄

theorem wp_getStatic {pool : String} (h : InFrame A heap base stack m) (hvalue : value.words.length = t.words)
    (hpool : symbols pool = some object) (ha : object + BitVec.ofInt 32 offset = a)
    (hhas : heap.Has a (t.store value)) (hout : ∀ k < t.bytes, ¬ A.Contains (a + BitVec.ofNat 32 k))
    (room : t.words + stack.length + base.length ≤ A.capacity) :
    wp symbols (getStatic pool offset t) (InFrame A heap base ((t.truncate value).words ++ stack)) m := by
  unfold getStatic
  refine wp_cons.2 ⟨m.set .t1 object, by rw [Machine.execute, hpool]; rfl, ?_⟩
  have h₁ := h.set (r := .t1) object (by decide) (by decide)
  cases value with
  | word w =>
    obtain ⟨op, hop, hload⟩ := FieldType.loadOp?_of_words hvalue.symm
    rw [hop]
    refine wp_readOutside (by simpa using ha) (hload (h₁.has hhas (by simpa [FieldType.store] using hout))) ?_
    refine wp_mono ((h₁.set (r := .t0) _ (by decide) (by decide)).wp_push (by decide) ?_) fun m₂ h₂ => ?_
    · rw [← hvalue, Operand.words, List.length_singleton] at room
      omega
    · rw [Machine.get_set_self (by decide)] at h₂
      exact h₂.1
  | wide v =>
    rw [FieldType.bytes_of_words hvalue.symm] at hout
    have hwords : t.words = 2 := hvalue.symm
    rw [(FieldType.ops_of_words hwords).2]
    refine wp_readOutside (by simpa using add_offset_four ha)
      (congrArg some (h₁.word_of_has_wide hhas hout).2) ?_
    refine wp_append.2 (wp_mono ((h₁.set (r := .t0) _ (by decide) (by decide)).wp_push (by decide) (by omega))
      fun m₂ h₂ => ?_)
    obtain ⟨h₂, hkeep₂⟩ := h₂
    rw [Machine.get_set_self (by decide)] at h₂
    have ht₂ : m₂.get .t1 = object := by simp [hkeep₂]
    refine wp_readOutside (by rw [ht₂, ha]) (congrArg some (h₂.word_of_has_wide hhas hout).1) ?_
    refine wp_mono ((h₂.set (r := .t0) _ (by decide) (by decide)).wp_push (by decide) (by simp; omega))
      fun m₃ h₃ => ?_
    rw [Machine.get_set_self (by decide)] at h₃
    exact h₃.1

section array
variable {b : BaseType} {array index : Word} {header : Int}

theorem wp_elementAddress {j k : Nat} {p q : Int} (h : InFrame A heap base stack m) (hp : p = 4 * j)
    (hq : q = 4 * k) (harray : stack[j]? = some array) (hindex : stack[k]? = some index) :
    wp symbols (elementAddress b p q) (fun m' => InFrame A heap base stack m' ∧
      m'.get .t0 = array + index <<< b.shift) m := by
  refine h.wp_peek hp harray ?_
  have h₁ := h.set (r := .t0) array (by decide) (by decide)
  refine h₁.wp_peek hq hindex ?_
  have h₂ := h₁.set (r := .t1) index (by decide) (by decide)
  have hshift : (0 : Int) ≤ b.shift ∧ (b.shift : Int) < 32 := by cases b <;> simp [BaseType.shift]
  refine wp_cons.2 ⟨_, by simp [Machine.execute, Mnemonic.combineImm?, hshift]; rfl, ?_⟩
  have h₃ := h₂.set (r := .t1) (index <<< b.shift) (by decide) (by decide)
  refine wp_step rfl (wp_nil.2 ⟨h₃.set _ (by decide) (by decide), ?_⟩)
  simp

theorem wp_arrayStore (h : InFrame A heap base (value.words ++ index :: array :: stack) m)
    (hvalue : value.words.length = b.fieldType.words)
    (ha : array + index <<< b.shift + BitVec.ofInt 32 header = a)
    (hout : ∀ k < b.fieldType.bytes, ¬ A.Contains (a + BitVec.ofNat 32 k)) :
    wp symbols (arrayStore header b) (InFrame A (heap.write a (b.fieldType.store value)) base stack) m := by
  unfold arrayStore
  rw [← BaseType.bytes_fieldType, ← FieldType.storeOp?]
  cases value with
  | word w =>
    obtain ⟨op, hop, hsize⟩ := FieldType.storeOp?_of_words hvalue.symm
    rw [hop]
    simp only [List.append_assoc]
    refine wp_append.2 (wp_mono (h.wp_elementAddress (j := 2) (k := 1) rfl rfl rfl rfl) fun m₁ h₁ => ?_)
    obtain ⟨h₁, ht₁⟩ := h₁
    refine h₁.wp_peek (i := 0) rfl rfl ?_
    refine (h₁.set (r := .t2) w (by decide) (by decide)).wp_drop (n := 3) rfl (by simp [Operand.words])
      fun m₂ h₂ hget₂ _ => ?_
    refine h₂.wp_writeOutside hsize (by simp [hget₂, ht₁, ha]) hout fun m₃ h₃ _ => wp_nil.2 ?_
    rw [hget₂ _ (by decide), Machine.get_set_self (by decide)] at h₃
    exact h₃
  | wide v =>
    rw [FieldType.bytes_of_words hvalue.symm] at hout
    rw [(FieldType.ops_of_words hvalue.symm).1]
    simp only [List.append_assoc]
    refine wp_append.2 (wp_mono (h.wp_elementAddress (j := 3) (k := 2) rfl rfl rfl rfl) fun m₁ h₁ => ?_)
    obtain ⟨h₁, ht₁⟩ := h₁
    refine h₁.wp_peek (i := 0) rfl rfl ?_
    have h₂ := h₁.set (r := .t2) (v.setWidth 32) (by decide) (by decide)
    refine h₂.wp_peek (i := 1) rfl rfl ?_
    have h₃ := h₂.set (r := .t3) ((v >>> 32).setWidth 32) (by decide) (by decide)
    refine h₃.wp_drop (n := 4) rfl (by simp [Operand.words, longWords]) fun m₄ h₄ hget₄ _ => ?_
    have ht₄ : m₄.get .t0 = array + index <<< b.shift := by simp [hget₄, ht₁]
    refine h₄.wp_writeOutside (n := 4) rfl (by rw [ht₄, ha]) (fun k hk => hout k (by omega)) fun m₅ h₅ hget₅ => ?_
    refine h₅.wp_writeOutside (n := 4) rfl (by rw [hget₅, ht₄, add_offset_four ha]) (outside_four hout)
      fun m₆ h₆ _ => wp_nil.2 ?_
    have hlow : m₄.get .t2 = v.setWidth 32 := by simp [hget₄]
    have hhigh : m₅.get .t3 = (v >>> 32).setWidth 32 := by simp [hget₅, hget₄]
    rw [hlow, hhigh, write_wide b.fieldType] at h₆
    exact h₆

theorem wp_arrayLength (h : InFrame A heap base (array :: stack) m) (ha : array + BitVec.ofInt 32 (header - 4) = a)
    (hhas : heap.Has a (lowBytes 4 w)) (hout : ∀ k < 4, ¬ A.Contains (a + BitVec.ofNat 32 k)) :
    wp symbols (arrayLength header) (InFrame A heap base (w :: stack)) m := by
  refine h.wp_peek (i := 0) rfl rfl ?_
  have h₁ := h.set (r := .t1) array (by decide) (by decide)
  have hword := (h₁.has hhas (by simpa using hout)).word
  refine wp_readOutside (by rw [Machine.get_set_self (by decide), ha]) (congrArg some hword) ?_
  have h₂ := h₁.set (r := .t0) w (by decide) (by decide)
  refine h₂.wp_poke (i := 0) rfl (by simp) fun m₃ h₃ _ => wp_nil.2 ?_
  rw [Machine.get_set_self (by decide)] at h₃
  exact h₃

theorem wp_arrayLoad (h : InFrame A heap base (index :: array :: stack) m)
    (hvalue : value.words.length = b.fieldType.words)
    (ha : array + index <<< b.shift + BitVec.ofInt 32 header = a) (hhas : heap.Has a (b.fieldType.store value))
    (hout : ∀ k < b.fieldType.bytes, ¬ A.Contains (a + BitVec.ofNat 32 k)) :
    wp symbols (arrayLoad header b) (InFrame A heap base ((b.fieldType.truncate value).words ++ stack)) m := by
  unfold arrayLoad
  rw [← BaseType.bytes_fieldType, ← BaseType.isSigned_fieldType, ← FieldType.loadOp?]
  refine wp_append.2 (wp_mono (h.wp_elementAddress (j := 1) (k := 0) rfl rfl rfl rfl) fun m₁ h₁ => ?_)
  obtain ⟨h₁, ht₁⟩ := h₁
  cases value with
  | word w =>
    obtain ⟨op, hop, hload⟩ := FieldType.loadOp?_of_words hvalue.symm
    rw [hop]
    refine wp_readOutside (by rw [ht₁, ha]) (hload (h₁.has hhas (by simpa [FieldType.store] using hout))) ?_
    refine (h₁.set (r := .t2) _ (by decide) (by decide)).wp_drop (n := 1) rfl (by simp) fun m₂ h₂ hget₂ _ => ?_
    refine h₂.wp_poke (i := 0) rfl (by simp) fun m₃ h₃ _ => wp_nil.2 ?_
    rw [hget₂ _ (by decide), Machine.get_set_self (by decide)] at h₃
    exact h₃
  | wide v =>
    rw [FieldType.bytes_of_words hvalue.symm] at hout
    rw [(FieldType.ops_of_words hvalue.symm).2]
    obtain ⟨hlow, hhigh⟩ := h₁.word_of_has_wide hhas hout
    refine wp_readOutside (by rw [ht₁, ha]) (congrArg some hlow) ?_
    have h₂ := h₁.set (r := .t2) (v.setWidth 32) (by decide) (by decide)
    refine wp_readOutside (a := a + 4#32) ?_ (congrArg some hhigh) ?_
    · rw [Machine.get_set_of_ne (by decide), ht₁, add_offset_four ha]
    have h₃ := h₂.set (r := .t3) ((v >>> 32).setWidth 32) (by decide) (by decide)
    refine h₃.wp_poke (i := 0) rfl (by simp) fun m₄ h₄ hget₄ => ?_
    refine h₄.wp_poke (i := 1) rfl (by simp) fun m₅ h₅ _ => wp_nil.2 ?_
    rw [hget₄, Machine.get_set_self (by decide), Machine.get_set_of_ne (by decide),
      Machine.get_set_self (by decide)] at h₅
    exact h₅

end array

end InFrame

/-- With the static fields at `pool`, the code stores a value of type `t` at the address `a`: it takes the value and the
given words below it off the operand stack. -/
def StoresAt (code : List Instr) (t : FieldType) (pool : Word) (operands : List Word) (a : Word) : Prop :=
  ∀ {symbols : String → Option Word} {A : Area} {heap : Memory} {base stack : List Word} {m : Machine} {value : Operand},
    symbols Symbol.staticFields = some pool → value.words.length = t.words →
    (∀ k < t.bytes, ¬ A.Contains (a + BitVec.ofNat 32 k)) →
    InFrame A heap base (value.words ++ operands ++ stack) m →
    wp symbols code (InFrame A (heap.write a (t.store value)) base stack) m

/-- With the static fields at `pool`, the code loads a value of type `t` from the address `a`: it replaces the given
words on the operand stack by the value, cut down to its type. -/
def LoadsAt (code : List Instr) (t : FieldType) (pool : Word) (operands : List Word) (a : Word) : Prop :=
  ∀ {symbols : String → Option Word} {A : Area} {heap : Memory} {base stack : List Word} {m : Machine} {value : Operand},
    symbols Symbol.staticFields = some pool → value.words.length = t.words →
    (∀ k < t.bytes, ¬ A.Contains (a + BitVec.ofNat 32 k)) → heap.Has a (t.store value) →
    t.words + stack.length + base.length ≤ A.capacity → InFrame A heap base (operands ++ stack) m →
    wp symbols code (InFrame A heap base ((t.truncate value).words ++ stack)) m

theorem loadsAt_arrayLength (pool array : Word) (header : Int) :
    LoadsAt (arrayLength header) BaseType.int.fieldType pool [array] (array + BitVec.ofInt 32 (header - 4)) := by
  intro symbols A heap base stack m value _ hvalue hout hhas _ h
  cases value with
  | word w => exact h.wp_arrayLength rfl hhas hout
  | wide => cases hvalue

/-! ### Locations -/

/-- Where a value is stored. -/
inductive Location where
  | static (offset : Int) (type : FieldType)
  | field (object : Word) (offset : Int) (type : FieldType)
  | element (array index : Word) (kind : ElementKind)
  deriving DecidableEq, Repr

namespace Location

/-- The type of the values stored there. -/
def type : Location → FieldType
  | static _ type | field _ _ type => type
  | element _ _ kind => kind.baseType.fieldType

/-- The address of the first byte, given where the static fields and the elements of an array start. -/
def address (pool : Word) (header : Int) : Location → Word
  | static offset _ => pool + BitVec.ofInt 32 offset
  | field object offset _ => object + BitVec.ofInt 32 offset
  | element array index kind => array + index <<< kind.baseType.shift + BitVec.ofInt 32 header

/-- The words on the operand stack that say where the value is, top first. -/
def operands : Location → List Word
  | static .. => []
  | field object _ _ => [object]
  | element array index _ => [index, array]

/-- The instruction that stores there. -/
def putOpcode : Location → Opcode
  | static .. => .putstatic
  | field .. => .putfield
  | element _ _ kind => .arrayStore kind

/-- The instruction that loads from there. -/
def getOpcode : Location → Opcode
  | static .. => .getstatic
  | field .. => .getfield
  | element _ _ kind => .arrayLoad kind

/-- An instruction names the field, if it is one. -/
def NamedBy {σ : Type} (l : Location) (context : Context σ) (state : σ) (i : Instruction) : Prop :=
  match l with
  | static offset type | field _ offset type => ∃ slot tag owner name descriptor state',
    i.constant = some ⟨slot, .member tag owner name descriptor⟩ ∧
      context.answer (.field owner name) state = (.ok ⟨offset, type, l matches .static ..⟩, state')
  | element .. => True

variable {σ : Type} {context : Context σ} {state : σ} {i : Instruction} {l : Location}

/-- The code that stores there. -/
def putCode (header : Int) : Location → List Instr
  | static offset type => putStatic Symbol.staticFields offset type
  | field _ offset type => putField offset type
  | element _ _ kind => arrayStore header kind.baseType

/-- The code that loads from there. -/
def getCode (header : Int) : Location → List Instr
  | static offset type => getStatic Symbol.staticFields offset type
  | field _ offset type => getField offset type
  | element _ _ kind => arrayLoad header kind.baseType

theorem run_field {access : Lowering.FieldAccess} {f : FieldRef} (hs : f.isStatic = access.isStatic)
    (h : ∃ slot tag owner name descriptor state', i.constant = some ⟨slot, .member tag owner name descriptor⟩ ∧
      context.answer (.field owner name) state = (.ok f, state')) :
    ∃ state', (Lowering.field access i.constant).run context state = ({ code := access.code f }, state') := by
  obtain ⟨slot, tag, owner, name, descriptor, state', hc, hanswer⟩ := h
  refine ⟨state', ?_⟩
  rw [hc]
  simp only [Lowering.field, Lowering.run, hanswer, if_pos hs]

theorem run_put (scope : Scope) (hop : i.opcode = l.putOpcode) (hnamed : l.NamedBy context state i) :
    ∃ state', (scope.lower i).run context state = ({ code := l.putCode scope.header }, state') := by
  rw [Scope.lower, hop]
  cases l with
  | static => exact run_field rfl hnamed
  | field => exact run_field rfl hnamed
  | element => exact ⟨state, rfl⟩

theorem run_get (scope : Scope) (hop : i.opcode = l.getOpcode) (hnamed : l.NamedBy context state i) :
    ∃ state', (scope.lower i).run context state = ({ code := l.getCode scope.header }, state') := by
  rw [Scope.lower, hop]
  cases l with
  | static => exact run_field rfl hnamed
  | field => exact run_field rfl hnamed
  | element => exact ⟨state, rfl⟩

section access
variable {A : Area} {heap : Memory} {base stack : List Word} {m : Machine} {symbols : String → Option Word}
  {pool : Word} {header : Int} {value : Operand}

theorem wp_putCode (hpool : symbols Symbol.staticFields = some pool) (hvalue : value.words.length = l.type.words)
    (hout : ∀ k < l.type.bytes, ¬ A.Contains (l.address pool header + BitVec.ofNat 32 k))
    (h : InFrame A heap base (value.words ++ l.operands ++ stack) m) :
    wp symbols (l.putCode header)
      (InFrame A (heap.write (l.address pool header) (l.type.store value)) base stack) m := by
  rw [List.append_assoc] at h
  cases l with
  | static offset type => exact h.wp_putStatic hvalue hpool rfl hout
  | field object offset type => exact h.wp_putField hvalue rfl hout
  | element array index kind => exact h.wp_arrayStore hvalue rfl hout

theorem wp_getCode (hpool : symbols Symbol.staticFields = some pool) (hvalue : value.words.length = l.type.words)
    (hout : ∀ k < l.type.bytes, ¬ A.Contains (l.address pool header + BitVec.ofNat 32 k))
    (hhas : heap.Has (l.address pool header) (l.type.store value))
    (room : l.type.words + stack.length + base.length ≤ A.capacity)
    (h : InFrame A heap base (l.operands ++ stack) m) :
    wp symbols (l.getCode header) (InFrame A heap base ((l.type.truncate value).words ++ stack)) m := by
  cases l with
  | static offset type => exact h.wp_getStatic hvalue hpool rfl hhas hout room
  | field object offset type => exact h.wp_getField hvalue rfl hhas hout room
  | element array index kind => exact h.wp_arrayLoad hvalue rfl hhas hout

end access

theorem storesAt_putCode (l : Location) (pool : Word) (header : Int) :
    StoresAt (l.putCode header) l.type pool l.operands (l.address pool header) :=
  fun hpool hvalue hout h => wp_putCode hpool hvalue hout h

theorem loadsAt_getCode (l : Location) (pool : Word) (header : Int) :
    LoadsAt (l.getCode header) l.type pool l.operands (l.address pool header) :=
  fun hpool hvalue hout hhas room h => wp_getCode hpool hvalue hout hhas room h

/-- What is stored in a field or an array element can be loaded again. The code that stores takes the value
and the words that say where it goes off the operand stack, and writes as many bytes as its type has, from the
address of the location on. The code that loads, as long as these bytes are there, replaces the words that say
where it is by the value, cut down to its type. Nothing else outside of the stack is touched. -/
theorem get_after_put (scope : Scope) (l : Location) (value : Operand)
    (hvalue : value.words.length = l.type.words) (symbols : String → Option Word) (pool : Word)
    (hpool : symbols Symbol.staticFields = some pool) {A : Area}
    (hout : ∀ k < l.type.bytes, ¬ A.Contains (l.address pool scope.header + BitVec.ofNat 32 k)) :
    ((l.type.store value).length = l.type.bytes ∧ ∀ heap : Memory,
      (heap.write (l.address pool scope.header) (l.type.store value)).Has (l.address pool scope.header)
        (l.type.store value)) ∧
    (∀ {σ : Type} (context : Context σ) (state : σ) (i : Instruction),
      i.opcode = l.putOpcode → l.NamedBy context state i →
      ∃ code state', (scope.lower i).run context state = ({ code }, state') ∧
        ∀ (heap : Memory) (base stack : List Word) (m : Machine),
          InFrame A heap base (value.words ++ l.operands ++ stack) m →
          wp symbols code
            (InFrame A (heap.write (l.address pool scope.header) (l.type.store value)) base stack) m) ∧
    ∀ {σ : Type} (context : Context σ) (state : σ) (i : Instruction),
      i.opcode = l.getOpcode → l.NamedBy context state i →
      ∃ code state', (scope.lower i).run context state = ({ code }, state') ∧
        ∀ (heap : Memory) (base stack : List Word) (m : Machine),
          heap.Has (l.address pool scope.header) (l.type.store value) →
          l.type.words + stack.length + base.length ≤ A.capacity →
          InFrame A heap base (l.operands ++ stack) m →
          wp symbols code (InFrame A heap base ((l.type.truncate value).words ++ stack)) m := by
  have hlen := FieldType.length_store hvalue
  refine ⟨⟨hlen, fun heap => Memory.has_write ?_⟩, fun context state i hop hnamed => ?_,
    fun context state i hop hnamed => ?_⟩
  · rw [hlen]
    exact Nat.le_trans l.type.bytes_le (by decide)
  · obtain ⟨state', hrun⟩ := run_put scope hop hnamed
    exact ⟨_, state', hrun, fun heap base stack m h => wp_putCode hpool hvalue hout h⟩
  · obtain ⟨state', hrun⟩ := run_get scope hop hnamed
    exact ⟨_, state', hrun, fun heap base stack m hhas room h => wp_getCode hpool hvalue hout hhas room h⟩

/-! ### An element of a byte array -/

/-- A machine about to store 511 in element 3 of an array of bytes. -/
def storing : Machine where
  regs := fun
    | .sp => 0xfff4
    | _ => 0x10000
  mem := Memory.write (fun _ => 0) 0xfff4 (lowBytes 4 511 ++ lowBytes 4 3 ++ lowBytes 4 0x2000)

theorem byte_element_comes_back_signed :
    wp (fun _ => some 0x3000)
      (arrayStore 12 .byte ++ (pushInt 0x2000 ++ pushInt 3) ++ arrayLoad 12 .byte)
      (InFrame ⟨0x10000, 4, by decide⟩ (storing.mem.write 0x200f [0xff]) [] [0xffffffff]) storing := by
  have hout : ∀ k < 1, ¬ Area.Contains ⟨0x10000, 4, by decide⟩
      (address 0x3000 12 (.element 0x2000 3 .byte) + BitVec.ofNat 32 k) := by
    intro k hk
    obtain rfl : k = 0 := by omega
    unfold Area.Contains
    decide
  have hm : InFrame ⟨0x10000, 4, by decide⟩ storing.mem [] [511, 3, 0x2000] storing := by
    refine ⟨⟨by decide, by decide, fun {i w} hw => ?_, fun _ => rfl⟩, by decide⟩
    match i with
    | 0 => cases hw; decide
    | 1 => cases hw; decide
    | 2 => cases hw; decide
    | i + 3 => cases hw
  obtain ⟨⟨-, hhas⟩, hput, hget⟩ := get_after_put ⟨"Main_main_V", [], 12⟩ (.element 0x2000 3 .byte) (.word 511)
    rfl (fun _ => some 0x3000) 0x3000 rfl hout
  have context : Context Unit := ⟨fun _ _ => (.error (Cause.exceptionHandlers "" "" : Failure), ())⟩
  obtain ⟨code, _, hrun, hput⟩ := hput context () { offset := 1, opcode := .arrayStore .byte } rfl trivial
  cases hrun
  obtain ⟨code, _, hrun, hget⟩ := hget context () { offset := 2, opcode := .arrayLoad .byte } rfl trivial
  cases hrun
  refine wp_append.2 (wp_append.2 (wp_mono (hput _ [] [] _ hm) fun m₁ h₁ => wp_append.2 ?_))
  refine wp_mono (h₁.wp_pushInt 0x2000 (by decide)) fun m₂ h₂ => ?_
  exact wp_mono (h₂.wp_pushInt 3 (by decide)) fun m₃ h₃ => hget _ [] [] _ (hhas _) (by decide) h₃

end Location

end JvmAot
