import JvmAot.Proofs.Rv32.Machine

/-! # A stack of words in memory

`Stacked A heap words m`: the stack pointer of `m` stands at the first of `words`, which lie one after the
other up to the top of the area `A`, and outside the area memory is `heap`. Every access of generated
code to its operand stack, its locals and its saved registers is an access to one of these words.

`InFrame A heap base stack m` splits the words at the frame pointer: `stack` is the operand stack, and
`base` is all that lies above it. Its `wp_…` lemmas say what one instruction does to the two lists. -/

namespace JvmAot

/-- The part of memory below `top` that a stack may use. -/
structure Area where
  top : Word
  /-- The number of words. -/
  capacity : Nat
  fits : 4 * capacity < 2 ^ 32

namespace Area
variable {A : Area}

/-- Where a stack of `k` words starts. -/
def slot (A : Area) (k : Nat) : Word :=
  A.top - BitVec.ofNat 32 (4 * k)

/-- Whether an address belongs to the area. -/
def Contains (A : Area) (x : Word) : Prop :=
  0 < (A.top - x).toNat ∧ (A.top - x).toNat ≤ 4 * A.capacity

theorem slot_add {k i : Nat} (hi : i ≤ k) : A.slot k + BitVec.ofInt 32 (4 * i) = A.slot (k - i) := by
  have h : BitVec.ofInt 32 (4 * i) = BitVec.ofNat 32 (4 * i) := by
    rw [← BitVec.ofInt_natCast]; rfl
  have hk : BitVec.ofNat 32 (4 * k) = BitVec.ofNat 32 (4 * i) + BitVec.ofNat 32 (4 * (k - i)) := by
    rw [← BitVec.ofNat_add]; congr 1; omega
  rw [h, slot, slot, hk]
  bv_omega

theorem slot_sub (k n : Nat) : A.slot k + BitVec.ofInt 32 (-(4 * n)) = A.slot (k + n) := by
  have h : BitVec.ofInt 32 (-(4 * n)) = -BitVec.ofNat 32 (4 * n) := by
    rw [BitVec.ofInt_neg, ← BitVec.ofInt_natCast]; rfl
  rw [h, slot, slot, Nat.mul_add, BitVec.ofNat_add]
  bv_omega

theorem toNat_slot_sub_slot {k k' : Nat} (hk : k ≤ A.capacity) (hk' : k' ≤ A.capacity) :
    (A.slot k' - A.slot k).toNat = if k' ≤ k then 4 * (k - k') else 2 ^ 32 - 4 * (k' - k) := by
  have := A.fits
  have h : A.slot k' - A.slot k = BitVec.ofNat 32 (4 * k) - BitVec.ofNat 32 (4 * k') := by
    rw [slot, slot]; bv_omega
  rw [h, BitVec.toNat_sub, BitVec.toNat_ofNat, BitVec.toNat_ofNat]
  split <;> omega

theorem contains_slot_add {k d : Nat} (hk : k ≤ A.capacity) (h0 : 0 < k) (hd : d < 4) :
    A.Contains (A.slot k + BitVec.ofNat 32 d) := by
  have := A.fits
  have h : A.top - (A.slot k + BitVec.ofNat 32 d) = BitVec.ofNat 32 (4 * k) - BitVec.ofNat 32 d := by
    rw [slot]; bv_omega
  rw [Contains, h, BitVec.toNat_sub, BitVec.toNat_ofNat, BitVec.toNat_ofNat]
  omega

/-- The word of a slot lies inside the area. -/
theorem toNat_sub_slot_of_not_contains {x : Word} (hx : ¬ A.Contains x) {k : Nat} (hk : k ≤ A.capacity)
    (h0 : 0 < k) : 4 ≤ (x - A.slot k).toNat := by
  have := A.fits
  have h : x - A.slot k = BitVec.ofNat 32 (4 * k) - (A.top - x) := by
    rw [slot]; bv_omega
  rw [Contains] at hx
  have hlt := (A.top - x).isLt
  rw [h, BitVec.toNat_sub, BitVec.toNat_ofNat]
  omega

end Area

/-- The words from the stack pointer up to the top of an area, and the memory around it. -/
structure Stacked (A : Area) (heap : Memory) (words : List Word) (m : Machine) : Prop where
  fits : words.length ≤ A.capacity
  sp : m.get .sp = A.slot words.length
  word : ∀ {i w}, words[i]? = some w → m.mem.word (A.slot (words.length - i)) = w
  outside : ∀ {x}, ¬ A.Contains x → m.mem x = heap x

namespace Stacked
variable {A : Area} {heap : Memory} {words : List Word} {m m' : Machine}

theorem congr (h : Stacked A heap words m) (hsp : m'.get .sp = m.get .sp) (hmem : m'.mem = m.mem) :
    Stacked A heap words m' :=
  ⟨h.fits, hsp.trans h.sp, by rw [hmem]; exact h.word, by rw [hmem]; exact h.outside⟩

/-- A register that points at the last `k` words reads word `i` of them. -/
theorem load (h : Stacked A heap words m) {r : Register} {k i j : Nat} {w : Word}
    (hr : m.get r = A.slot k) (hi : i < k) (hj : j + k = words.length + i) (hw : words[j]? = some w) :
    m.mem.word (m.get r + BitVec.ofInt 32 (4 * i)) = w := by
  rw [hr, Area.slot_add (by omega), ← h.word hw]
  congr 2; omega

/-- A register that points at the last `k` words writes word `i` of them. -/
theorem store (h : Stacked A heap words m) {r : Register} {k i j : Nat} (w : Word)
    (hr : m.get r = A.slot k) (hi : i < k) (hj : j + k = words.length + i) (hk : k ≤ words.length) :
    Stacked A heap (words.set j w)
      (m.store (m.get r + BitVec.ofInt 32 (4 * i)) (lowBytes 4 w)) := by
  have hfits := h.fits
  have hat : m.get r + BitVec.ofInt 32 (4 * i) = A.slot (words.length - j) := by
    rw [hr, Area.slot_add (by omega)]; congr 1; omega
  rw [hat]
  refine ⟨by simpa using h.fits, by simpa using h.sp, fun {j' w'} hw' => ?_, fun {x} hx => ?_⟩
  · rw [List.length_set, Machine.mem_store]
    rw [List.getElem?_set] at hw'
    split at hw'
    · next heq =>
      subst heq
      rw [if_pos (by omega), Option.some.injEq] at hw'
      rw [Memory.word_write_self, hw']
    · next hne =>
      have hj' : j' < words.length := (List.getElem?_eq_some_iff.1 hw').1
      -- two different words of the area are at least a word apart in both directions
      have hapart : 4 ≤ (A.slot (words.length - j') - A.slot (words.length - j)).toNat ∧
          (A.slot (words.length - j') - A.slot (words.length - j)).toNat + 4 ≤ 2 ^ 32 := by
        have := A.fits
        rw [Area.toNat_slot_sub_slot (by omega) (by omega)]
        split <;> omega
      rw [Memory.word_write_of_le (by simpa using hapart.1) hapart.2, h.word hw']
  · rw [Machine.mem_store, Memory.write_apply_of_le, h.outside hx]
    rw [length_lowBytes]
    exact A.toNat_sub_slot_of_not_contains hx (by omega) (by omega)

theorem pop (h : Stacked A heap words m) (n : Nat) :
    Stacked A heap (words.drop n) (m.set .sp (A.slot (words.length - n))) := by
  refine ⟨by have := h.fits; simp; omega, by simp, fun {i w} hw => ?_, h.outside⟩
  rw [List.getElem?_drop] at hw
  rw [Machine.mem_set, ← h.word hw, List.length_drop]
  congr 2; omega

theorem grow (h : Stacked A heap words m) {n : Nat} (hn : words.length + n ≤ A.capacity) :
    ∃ junk : List Word, junk.length = n ∧
      Stacked A heap (junk ++ words) (m.set .sp (A.slot (words.length + n))) := by
  refine ⟨(List.range n).map fun i => m.mem.word (A.slot (words.length + n - i)), by simp, ?_⟩
  refine ⟨by simp; omega, by simp [Nat.add_comm], fun {i w} hw => ?_, h.outside⟩
  rw [Machine.mem_set, List.length_append, List.length_map, List.length_range]
  rcases Nat.lt_or_ge i n with hi | hi
  · rw [List.getElem?_append_left (by simpa using hi)] at hw
    simp only [List.getElem?_map, List.getElem?_range hi, Option.map_some, Option.some.injEq] at hw
    rw [← hw, Nat.add_comm n]
  · rw [List.getElem?_append_right (by simpa using hi), List.length_map, List.length_range] at hw
    rw [← h.word hw]
    congr 2; omega

theorem set (h : Stacked A heap words m) {r : Register} (w : Word) (hsp : r ≠ .sp) :
    Stacked A heap words (m.set r w) :=
  h.congr (Machine.get_set_of_ne hsp.symm) rfl

variable {symbols : String → Option Word} {code : List Instr} {Q : Machine → Prop} {offset : Int}
  {r p : Register} {i j k n : Nat} {w : Word}

theorem wp_read (h : Stacked A heap words m) (hp : m.get p = A.slot k) (ho : offset = 4 * i) (hi : i < k)
    (hj : j + k = words.length + i) (hw : words[j]? = some w) (hQ : wp symbols code Q (m.set r w)) :
    wp symbols (.load .lw r offset p :: code) Q m := by
  refine wp_step ?_ hQ
  rw [ho, Machine.execute, Mnemonic.load?, h.load hp hi hj hw]
  rfl

theorem wp_write (h : Stacked A heap words m) (hp : m.get p = A.slot k) (ho : offset = 4 * i) (hi : i < k)
    (hj : j + k = words.length + i) (hk : k ≤ words.length)
    (hQ : ∀ m', Stacked A heap (words.set j (m.get r)) m' → (∀ q, m'.get q = m.get q) →
      wp symbols code Q m') : wp symbols (.store .sw r offset p :: code) Q m := by
  refine wp_step rfl (hQ _ ?_ fun _ => rfl)
  rw [ho]
  exact h.store _ hp hi hj hk

theorem wp_drop (h : Stacked A heap words m) (ho : offset = 4 * n) (hn : n ≤ words.length)
    (hQ : ∀ m', Stacked A heap (words.drop n) m' → (∀ q, q ≠ .sp → m'.get q = m.get q) → m'.mem = m.mem →
      wp symbols code Q m') : wp symbols (.opImm .addi .sp .sp offset :: code) Q m := by
  refine wp_step rfl (hQ _ ?_ (fun q hq => Machine.get_set_of_ne hq) rfl)
  rw [ho, h.sp, Area.slot_add hn]
  exact h.pop n

theorem wp_grow (h : Stacked A heap words m) (ho : offset = -(4 * n)) (hn : words.length + n ≤ A.capacity)
    (hQ : ∀ m' junk, junk.length = n → Stacked A heap (junk ++ words) m' →
      (∀ q, q ≠ .sp → m'.get q = m.get q) → wp symbols code Q m') :
    wp symbols (.opImm .addi .sp .sp offset :: code) Q m := by
  obtain ⟨junk, hlen, hjunk⟩ := h.grow hn
  refine wp_step rfl (hQ _ junk hlen ?_ fun q hq => Machine.get_set_of_ne hq)
  rw [ho, h.sp, Area.slot_sub]
  exact hjunk

end Stacked

theorem take_set_append_drop {α : Type} {l : List α} {j : Nat} (hj : j < l.length) (x : α) (n : Nat) :
    (l.set j x).take (j + 1) = l.take j ++ [x] ∧ (l.set j x).drop (j + 1 + n) = l.drop (j + 1 + n) := by
  refine ⟨?_, List.drop_set_of_lt (by omega)⟩
  rw [List.take_add_one, List.take_set_of_le (Nat.le_refl j), List.getElem?_set_self hj]
  rfl

/-- An operand stack, and the words above it from the frame pointer on. -/
structure InFrame (A : Area) (heap : Memory) (base stack : List Word) (m : Machine) : Prop where
  stacked : Stacked A heap (stack ++ base) m
  fp : m.get .fp = A.slot base.length

namespace InFrame
variable {A : Area} {heap : Memory} {base stack : List Word} {m m' : Machine} {r : Register}
  {symbols : String → Option Word} {code : List Instr} {Q : Machine → Prop} {offset : Int} {i n : Nat} {w : Word}

theorem congr (h : InFrame A heap base stack m) (hsp : m'.get .sp = m.get .sp)
    (hfp : m'.get .fp = m.get .fp) (hmem : m'.mem = m.mem) : InFrame A heap base stack m' :=
  ⟨h.stacked.congr hsp hmem, hfp.trans h.fp⟩

theorem set (h : InFrame A heap base stack m) (w : Word) (hsp : r ≠ .sp) (hfp : r ≠ .fp) :
    InFrame A heap base stack (m.set r w) :=
  h.congr (Machine.get_set_of_ne hsp.symm) (Machine.get_set_of_ne hfp.symm) rfl

/-- Reads a word of the operand stack. -/
theorem wp_peek (h : InFrame A heap base stack m) (ho : offset = 4 * i) (hw : stack[i]? = some w)
    (hQ : wp symbols code Q (m.set r w)) : wp symbols (.load .lw r offset .sp :: code) Q m := by
  have hi := (List.getElem?_eq_some_iff.1 hw).1
  exact h.stacked.wp_read h.stacked.sp ho (by simp; omega) (Nat.add_comm ..)
    (by rw [List.getElem?_append_left hi, hw]) hQ

/-- Writes a word of the operand stack. -/
theorem wp_poke (h : InFrame A heap base stack m) (ho : offset = 4 * i) (hi : i < stack.length)
    (hQ : ∀ m', InFrame A heap base (stack.set i (m.get r)) m' → (∀ q, m'.get q = m.get q) →
      wp symbols code Q m') : wp symbols (.store .sw r offset .sp :: code) Q m := by
  refine h.stacked.wp_write h.stacked.sp ho (by simp; omega) (Nat.add_comm ..) (Nat.le_refl _)
    fun m' h' hget' => hQ m' ⟨?_, (hget' _).trans h.fp⟩ hget'
  rwa [← List.set_append_left _ _ hi]

/-- Takes words off the operand stack. -/
theorem wp_drop (h : InFrame A heap base stack m) (ho : offset = 4 * n) (hn : n ≤ stack.length)
    (hQ : ∀ m', InFrame A heap base (stack.drop n) m' → (∀ q, q ≠ .sp → m'.get q = m.get q) →
      m'.mem = m.mem → wp symbols code Q m') : wp symbols (.opImm .addi .sp .sp offset :: code) Q m := by
  refine h.stacked.wp_drop ho (by simp; omega) fun m' h' hget' =>
    hQ m' ⟨?_, (hget' _ (by decide)).trans h.fp⟩ hget'
  rwa [← List.drop_append_of_le_length hn]

/-- Makes room on the operand stack. -/
theorem wp_grow (h : InFrame A heap base stack m) (ho : offset = -(4 * n))
    (hn : stack.length + base.length + n ≤ A.capacity)
    (hQ : ∀ m' junk, junk.length = n → InFrame A heap base (junk ++ stack) m' →
      (∀ q, q ≠ .sp → m'.get q = m.get q) → wp symbols code Q m') :
    wp symbols (.opImm .addi .sp .sp offset :: code) Q m := by
  refine h.stacked.wp_grow ho (by simpa using hn) fun m' junk hjunk h' hget' =>
    hQ m' junk hjunk ⟨?_, (hget' _ (by decide)).trans h.fp⟩ hget'
  rwa [List.append_assoc]

/-- Reads a word above the frame pointer. -/
theorem wp_readBase (h : InFrame A heap base stack m) (ho : offset = 4 * i) (hw : base[i]? = some w)
    (hQ : wp symbols code Q (m.set r w)) : wp symbols (.load .lw r offset .fp :: code) Q m := by
  have hi := (List.getElem?_eq_some_iff.1 hw).1
  exact h.stacked.wp_read (j := stack.length + i) h.fp ho hi (by simp; omega)
    (by rw [List.getElem?_append_right (by omega), Nat.add_sub_cancel_left, hw]) hQ

/-- Writes a word above the frame pointer. -/
theorem wp_writeBase (h : InFrame A heap base stack m) (ho : offset = 4 * i) (hi : i < base.length)
    (hQ : ∀ m', InFrame A heap (base.set i (m.get r)) stack m' → (∀ q, m'.get q = m.get q) →
      wp symbols code Q m') : wp symbols (.store .sw r offset .fp :: code) Q m := by
  refine h.stacked.wp_write (j := stack.length + i) h.fp ho hi (by simp; omega) (by simp)
    fun m' h' hget' => hQ m' ⟨?_, by simpa [hget'] using h.fp⟩ hget'
  rwa [List.set_append_right _ _ (by omega), Nat.add_sub_cancel_left] at h'

/-! ### Memory outside of the area -/

theorem has (h : InFrame A heap base stack m) {a : Word} {bytes : List Byte} (hhas : heap.Has a bytes)
    (hout : ∀ k < bytes.length, ¬ A.Contains (a + BitVec.ofNat 32 k)) : m.mem.Has a bytes :=
  fun k hk => (h.stacked.outside (hout k hk)).trans (hhas k hk)

/-- Writes memory outside of the area. -/
theorem wp_writeOutside {op : Mnemonic} {p : Register} {a : Word} (h : InFrame A heap base stack m)
    (hop : op.storeSize? = some n) (ha : m.get p + BitVec.ofInt 32 offset = a)
    (hout : ∀ k < n, ¬ A.Contains (a + BitVec.ofNat 32 k))
    (hQ : ∀ m', InFrame A (heap.write a (lowBytes n (m.get r))) base stack m' → (∀ q, m'.get q = m.get q) →
      wp symbols code Q m') : wp symbols (.store op r offset p :: code) Q m := by
  refine wp_cons.2 ⟨m.store a (lowBytes n (m.get r)), by rw [Machine.execute, hop, ha]; rfl,
    hQ _ ⟨⟨h.stacked.fits, h.stacked.sp, fun {i w} hw => ?_, fun {x} hx => ?_⟩, h.fp⟩ fun _ => rfl⟩
  · have hi := (List.getElem?_eq_some_iff.1 hw).1
    have hfits := h.stacked.fits
    -- no byte of the word is written
    have hbyte (d : Nat) (hd : d < 4) :
        n ≤ (A.slot ((stack ++ base).length - i) + BitVec.ofNat 32 d - a).toNat := by
      by_contra hlt
      refine hout _ (Nat.lt_of_not_le hlt) ?_
      rw [BitVec.ofNat_toNat, BitVec.setWidth_eq, BitVec.add_comm, BitVec.sub_add_cancel]
      exact A.contains_slot_add (by omega) (by omega) hd
    rw [Machine.mem_store, ← h.stacked.word hw]
    generalize A.slot ((stack ++ base).length - i) = b at hbyte ⊢
    have hkeep (d : Nat) (hd : d < 4) : m.mem.write a (lowBytes n (m.get r)) (b + BitVec.ofNat 32 d) =
        m.mem (b + BitVec.ofNat 32 d) :=
      Memory.write_apply_of_le (by rw [length_lowBytes]; exact hbyte d hd)
    exact Memory.word_congr (by simpa using hkeep 0 (by omega)) (hkeep 1 (by omega)) (hkeep 2 (by omega))
      (hkeep 3 (by omega))
  · rw [Machine.mem_store, Memory.write, Memory.write, h.stacked.outside hx]

/-! ### Several registers at once -/

/-- Reads words of the operand stack into registers, number `k + i` of the words at `index (k + i)`. -/
theorem wp_peeks {k : Nat} (h : InFrame A heap base stack m) (rs : List Register) (offset : Nat → Int)
    (index : Nat → Nat) (value : Nat → Word) (ho : ∀ i, i < k + rs.length → offset i = 4 * index i)
    (hw : ∀ i, i < k + rs.length → stack[index i]? = some (value i)) (hnd : rs.Nodup)
    (hzero : .zero ∉ rs) (hsp : .sp ∉ rs) (hfp : .fp ∉ rs)
    (hQ : ∀ m', InFrame A heap base stack m' → (∀ i (hi : i < rs.length), m'.get rs[i] = value (k + i)) →
      (∀ q, q ∉ rs → m'.get q = m.get q) → m'.mem = m.mem → wp symbols code Q m') :
    wp symbols ((rs.zipIdx k).map (fun p => .load .lw p.1 (offset p.2) .sp) ++ code) Q m := by
  induction rs generalizing k m with
  | nil => exact hQ m h (by simp) (by simp) rfl
  | cons r rs ih =>
    simp only [List.mem_cons, not_or, List.nodup_cons, List.length_cons] at *
    refine h.wp_peek (ho k (by omega)) (hw k (by omega)) ?_
    refine ih (h.set _ (Ne.symm hsp.1) (Ne.symm hfp.1)) (fun i hi => ho i (by omega))
      (fun i hi => hw i (by omega)) hnd.2 hzero.2 hsp.2 hfp.2 fun m' hm' hget hkeep hmem => ?_
    refine hQ m' hm' (fun i hi => ?_) (fun q hq => ?_) hmem
    · cases i with
      | zero => rw [List.getElem_cons_zero, hkeep r hnd.1, Machine.get_set_self (Ne.symm hzero.1)]; rfl
      | succ i =>
        rw [List.getElem_cons_succ, hget i (by omega)]
        congr 1; omega
    · rw [hkeep q hq.2, Machine.get_set_of_ne hq.1]

/-- Writes registers to the operand stack, from word `j + k` on. -/
theorem wp_pokes {k : Nat} (h : InFrame A heap base stack m) (rs : List Register) (offset : Nat → Int)
    (j : Nat) (ho : ∀ i, offset i = 4 * (j + i : Nat))
    (hlen : j + k + rs.length ≤ stack.length)
    (hQ : ∀ m', InFrame A heap base (stack.take (j + k) ++ rs.map m.get ++ stack.drop (j + k + rs.length)) m' →
      (∀ q, m'.get q = m.get q) → wp symbols code Q m') :
    wp symbols ((rs.zipIdx k).map (fun p => .store .sw p.1 (offset p.2) .sp) ++ code) Q m := by
  induction rs generalizing k stack m with
  | nil => exact hQ m (by simpa using h) fun _ => rfl
  | cons r rs ih =>
    rw [List.length_cons] at hlen
    refine h.wp_poke (ho k) (by omega) fun m₁ h₁ hget₁ => ?_
    refine ih h₁ (by simpa using by omega) fun m' h' hget' => hQ m' ?_ fun q => (hget' q).trans (hget₁ q)
    obtain ⟨htake, hdrop⟩ := take_set_append_drop (l := stack) (j := j + k) (by omega) (m.get r) rs.length
    rw [← Nat.add_assoc, htake, hdrop] at h'
    rw [List.map_cons, List.length_cons, Nat.add_comm rs.length, ← Nat.add_assoc]
    simpa [funext hget₁] using h'

/-- Writes registers to the words from the frame pointer on. -/
theorem wp_writeBases {k : Nat} (h : InFrame A heap base stack m) (rs : List Register)
    (offset : Nat → Int) (ho : ∀ i, offset i = 4 * (i : Nat)) (hlen : k + rs.length ≤ base.length)
    (hQ : ∀ m', InFrame A heap (base.take k ++ rs.map m.get ++ base.drop (k + rs.length)) stack m' →
      (∀ q, m'.get q = m.get q) → wp symbols code Q m') :
    wp symbols ((rs.zipIdx k).map (fun p => .store .sw p.1 (offset p.2) .fp) ++ code) Q m := by
  induction rs generalizing k base m with
  | nil => exact hQ m (by simpa using h) fun _ => rfl
  | cons r rs ih =>
    rw [List.length_cons] at hlen
    refine h.wp_writeBase (ho k) (by omega) fun m₁ h₁ hget₁ => ?_
    refine ih h₁ (by simpa using by omega) fun m' h' hget' => hQ m' ?_ fun q => (hget' q).trans (hget₁ q)
    obtain ⟨htake, hdrop⟩ := take_set_append_drop (l := base) (j := k) (by omega) (m.get r) rs.length
    rw [htake, hdrop] at h'
    rw [List.map_cons, List.length_cons, Nat.add_comm rs.length, ← Nat.add_assoc]
    simpa [funext hget₁] using h'

end InFrame

end JvmAot
