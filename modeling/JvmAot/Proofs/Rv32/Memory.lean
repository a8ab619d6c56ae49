import Mathlib.Algebra.Order.Ring.Int
import Mathlib.Data.List.GetD

/-! # Words and memory

Memory has one byte for each 32-bit address. Halfwords and words are stored lowest byte first, at any
address, and addresses wrap around at the end. `Memory.write` stores any number of bytes at once, so
that a store of every width, and two stores next to each other (`write_append`), are one write. -/

namespace JvmAot

/-- A machine word. -/
abbrev Word := BitVec 32

/-- A byte of memory. -/
abbrev Byte := BitVec 8

/-- The bytes of memory by address. -/
abbrev Memory := Word → Byte

/-- The lowest `n` bytes of a word, lowest first. -/
def lowBytes (n : Nat) (w : Word) : List Byte :=
  (List.range n).map fun i => w.extractLsb' (8 * i) 8

@[simp] theorem length_lowBytes (n : Nat) (w : Word) : (lowBytes n w).length = n := by
  simp [lowBytes]

theorem getElem_lowBytes {n : Nat} (w : Word) {i : Nat} (hi : i < (lowBytes n w).length) :
    (lowBytes n w)[i] = w.extractLsb' (8 * i) 8 := by
  simp [lowBytes]

namespace Memory

/-- The halfword at an address. -/
def halfword (m : Memory) (a : Word) : BitVec 16 :=
  m (a + 1#32) ++ m a

/-- The word at an address. -/
def word (m : Memory) (a : Word) : Word :=
  m (a + 3#32) ++ m (a + 2#32) ++ m (a + 1#32) ++ m a

/-- Stores bytes from an address on. -/
def write (m : Memory) (a : Word) (bytes : List Byte) : Memory :=
  fun x => bytes.getD (x - a).toNat (m x)

variable {m m' : Memory} {a b x : Word} {bytes : List Byte}

/-- A write changes nothing but the bytes from its address on. -/
theorem write_apply_of_le (h : bytes.length ≤ (x - a).toNat) : m.write a bytes x = m x :=
  List.getD_eq_default _ _ h

theorem write_apply_add {i : Nat} (hi : i < bytes.length) (hi' : i < 2 ^ 32) :
    m.write a bytes (a + BitVec.ofNat 32 i) = bytes[i] := by
  have h : (a + BitVec.ofNat 32 i - a).toNat = i := by
    rw [BitVec.add_comm, BitVec.add_sub_cancel, BitVec.toNat_ofNat, Nat.mod_eq_of_lt hi']
  rw [write, h, List.getD_eq_getElem _ _ hi]

/-- Two writes next to each other are one. -/
theorem write_append {more : List Byte} (h : bytes.length + more.length ≤ 2 ^ 32) :
    (m.write a bytes).write (a + BitVec.ofNat 32 bytes.length) more = m.write a (bytes ++ more) := by
  funext x
  have hx := (x - a).isLt
  have hsub : x - (a + BitVec.ofNat 32 bytes.length) = x - a - BitVec.ofNat 32 bytes.length := by
    simp only [BitVec.sub_eq_add_neg, BitVec.neg_add, BitVec.add_assoc]
  simp only [write, hsub]
  generalize (x - a) = d at hx ⊢
  rcases Nat.lt_or_ge d.toNat bytes.length with hlt | hge
  · have hd : more.length ≤ (d - BitVec.ofNat 32 bytes.length).toNat := by
      rw [BitVec.toNat_sub, BitVec.toNat_ofNat]; omega
    rw [List.getD_eq_default _ _ hd, List.getD_append _ _ _ _ hlt]
  · have hd : (d - BitVec.ofNat 32 bytes.length).toNat = d.toNat - bytes.length := by
      rw [BitVec.toNat_sub, BitVec.toNat_ofNat]; omega
    rw [hd, List.getD_append_right _ _ _ _ hge, List.getD_eq_default bytes _ hge]

theorem word_congr (h0 : m a = m' a) (h1 : m (a + 1#32) = m' (a + 1#32))
    (h2 : m (a + 2#32) = m' (a + 2#32)) (h3 : m (a + 3#32) = m' (a + 3#32)) : m.word a = m'.word a := by
  rw [word, word, h0, h1, h2, h3]

/-- A write leaves the words alone that it does not reach. -/
theorem word_write_of_le (h : bytes.length ≤ (b - a).toNat) (h' : (b - a).toNat + 4 ≤ 2 ^ 32) :
    (m.write a bytes).word b = m.word b := by
  refine word_congr ?_ ?_ ?_ ?_ <;> refine write_apply_of_le (Nat.le_trans h ?_) <;> bv_omega

theorem write_lowBytes_apply_add {n i : Nat} (hn : n ≤ 4) (hi : i < n) (w : Word) :
    m.write a (lowBytes n w) (a + BitVec.ofNat 32 i) = w.extractLsb' (8 * i) 8 := by
  rw [write_apply_add (by simpa using hi) (by omega), getElem_lowBytes]

theorem write_lowBytes_apply {n : Nat} (hn : n ≤ 4) (h0 : 0 < n) (w : Word) :
    m.write a (lowBytes n w) a = w.extractLsb' 0 8 := by
  have h := write_lowBytes_apply_add (m := m) (a := a) hn h0 w
  rwa [BitVec.add_zero] at h

theorem byte_write_self (w : Word) : m.write a (lowBytes 1 w) a = w.setWidth 8 := by
  rw [write_lowBytes_apply (by omega) (by omega)]
  ext i hi
  simp

theorem halfword_write_self (w : Word) : (m.write a (lowBytes 2 w)).halfword a = w.setWidth 16 := by
  have h {i : Nat} (hi : i < 2) := write_lowBytes_apply_add (m := m) (a := a) (n := 2) (by omega) hi w
  rw [halfword, write_lowBytes_apply (by omega) (by omega), h (i := 1) (by omega)]
  ext i hi
  simp only [BitVec.getElem_append, BitVec.getElem_extractLsb', BitVec.getElem_setWidth]
  split <;> congr 1 <;> omega

theorem word_write_self (w : Word) : (m.write a (lowBytes 4 w)).word a = w := by
  have h {i : Nat} (hi : i < 4) := write_lowBytes_apply_add (m := m) (a := a) (n := 4) (by omega) hi w
  rw [word, write_lowBytes_apply (by omega) (by omega), h (i := 1) (by omega), h (i := 2) (by omega),
    h (i := 3) (by omega)]
  ext i hi
  simp only [BitVec.getElem_append, BitVec.getElem_extractLsb']
  rw [← BitVec.getLsbD_eq_getElem]
  split
  · congr 1; omega
  · split
    · congr 1; omega
    · split <;> congr 1 <;> omega

/-! ### Bytes that are there -/

/-- These bytes are in memory from an address on. -/
def Has (m : Memory) (a : Word) (bytes : List Byte) : Prop :=
  ∀ k (hk : k < bytes.length), m (a + BitVec.ofNat 32 k) = bytes[k]

theorem has_write (h : bytes.length ≤ 2 ^ 32) : (m.write a bytes).Has a bytes :=
  fun _ hk => write_apply_add hk (by omega)

theorem Has.write_eq (h : m.Has a bytes) : m.write a bytes = m := by
  funext x
  rcases Nat.lt_or_ge (x - a).toNat bytes.length with hlt | hge
  · rw [write, List.getD_eq_getElem _ _ hlt, ← h _ hlt, BitVec.ofNat_toNat, BitVec.setWidth_eq,
      BitVec.add_comm, BitVec.sub_add_cancel]
  · exact write_apply_of_le hge

theorem has_append {more : List Byte} :
    m.Has a (bytes ++ more) ↔ m.Has a bytes ∧ m.Has (a + BitVec.ofNat 32 bytes.length) more := by
  constructor
  · intro h
    refine ⟨fun k hk => ?_, fun k hk => ?_⟩
    · rw [h k (by simp; omega), List.getElem_append_left hk]
    · rw [BitVec.add_assoc, ← BitVec.ofNat_add, h (bytes.length + k) (by simpa using hk),
        List.getElem_append_right (by omega)]
      simp
  · rintro ⟨h, h'⟩ k hk
    rcases Nat.lt_or_ge k bytes.length with hlt | hge
    · rw [List.getElem_append_left hlt, h k hlt]
    · rw [List.getElem_append_right hge, ← h', BitVec.add_assoc, ← BitVec.ofNat_add, Nat.add_sub_cancel' hge]

theorem Has.byte {w : Word} (h : m.Has a (lowBytes 1 w)) : m a = w.setWidth 8 := by
  rw [← h.write_eq, byte_write_self]

theorem Has.halfword {w : Word} (h : m.Has a (lowBytes 2 w)) : m.halfword a = w.setWidth 16 := by
  rw [← h.write_eq, halfword_write_self]

theorem Has.word {w : Word} (h : m.Has a (lowBytes 4 w)) : m.word a = w := by
  rw [← h.write_eq, word_write_self]

end Memory

end JvmAot
