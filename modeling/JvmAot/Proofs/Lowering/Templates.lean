import JvmAot.Proofs.Lowering.Operations
import JvmAot.Proofs.Rv32.Stack

/-! # What code templates do to a frame

One lemma for each template of code that works on the operand stack and the locals: run with the words
`stack` on the operand stack and `base` from the frame pointer on, it leaves the words that its lemma
says. -/

namespace JvmAot.InFrame

open Template

variable {A : Area} {heap : Memory} {base stack : List Word} {m : Machine} {r : Register}
  {symbols : String → Option Word} {v w x y z : Word} {locals locals' outer : List Word} {index : Int}

theorem wp_push (h : InFrame A heap base stack m) (hr : r ≠ .sp)
    (room : stack.length + 1 + base.length ≤ A.capacity) :
    wp symbols (push r) (fun m' => InFrame A heap base (m.get r :: stack) m' ∧
      ∀ q, q ≠ .sp → m'.get q = m.get q) m := by
  refine h.wp_grow (n := 1) rfl (by omega) fun m₁ junk hjunk h₁ hget₁ => ?_
  obtain ⟨x, rfl⟩ := List.length_eq_one_iff.1 hjunk
  refine h₁.wp_poke (i := 0) rfl (by simp) fun m₂ h₂ hget₂ => wp_nil.2 ⟨?_, fun q hq => ?_⟩
  · rw [hget₁ r hr] at h₂
    exact h₂
  · rw [hget₂, hget₁ q hq]

theorem wp_pop (h : InFrame A heap base (w :: stack) m) (hz : r ≠ .zero) (hsp : r ≠ .sp) (hfp : r ≠ .fp) :
    wp symbols (pop r) (fun m' => InFrame A heap base stack m' ∧ m'.get r = w ∧
      ∀ q, q ≠ .sp → q ≠ r → m'.get q = m.get q) m := by
  refine h.wp_peek (i := 0) rfl rfl ?_
  refine (h.set w hsp hfp).wp_drop (n := 1) rfl (by simp) fun m₁ h₁ hget₁ _ => wp_nil.2 ⟨h₁, ?_, ?_⟩
  · rw [hget₁ r hsp, Machine.get_set_self hz]
  · intro q hq hqr
    rw [hget₁ q hq, Machine.get_set_of_ne hqr]

/-! ### Constants and locals -/

theorem wp_pushInt (h : InFrame A heap base stack m) (value : Int)
    (room : stack.length + 1 + base.length ≤ A.capacity) :
    wp symbols (pushInt value) (InFrame A heap base (BitVec.ofInt 32 value :: stack)) m := by
  refine wp_step rfl (wp_mono ((h.set _ (by decide) (by decide)).wp_push (by decide) room) fun m' h' => ?_)
  rw [Machine.get_set_self (by decide), ofInt_bmod] at h'
  exact h'.1

theorem wp_pushLong (h : InFrame A heap base stack m) (value : Int)
    (room : stack.length + 2 + base.length ≤ A.capacity) :
    wp symbols (pushLong value) (InFrame A heap base (longWords (BitVec.ofInt 64 value) ++ stack)) m := by
  rw [longWords_ofInt]
  refine wp_append.2 (wp_mono (h.wp_pushInt _ (by omega)) fun m₁ h₁ => ?_)
  exact h₁.wp_pushInt _ room

theorem wp_loadWord (h : InFrame A heap (locals ++ outer) stack m) (hw : local? locals index = some w)
    (room : stack.length + 1 + (locals ++ outer).length ≤ A.capacity) :
    wp symbols (loadWord index) (InFrame A heap (locals ++ outer) (w :: stack)) m := by
  obtain ⟨i, rfl, hi⟩ := local?_eq_some hw
  refine h.wp_readBase rfl (by rw [List.getElem?_append_left (List.getElem?_eq_some_iff.1 hi).1, hi]) ?_
  refine wp_mono ((h.set w (by decide) (by decide)).wp_push (by decide) room) fun m' h' => ?_
  rw [Machine.get_set_self (by decide)] at h'
  exact h'.1

/-- The store that ends code for a local. -/
theorem wp_writeLocal (h : InFrame A heap (locals ++ outer) stack m)
    (hs : setLocal? locals index (m.get r) = some locals') :
    wp symbols [.store .sw r (4 * index) .fp] (InFrame A heap (locals' ++ outer) stack) m := by
  obtain ⟨i, rfl, hi, rfl⟩ := setLocal?_eq_some hs
  refine h.wp_writeBase rfl (by simp; omega) fun m' h' _ => wp_nil.2 ?_
  rwa [List.set_append_left _ _ hi] at h'

theorem wp_storeWord (h : InFrame A heap (locals ++ outer) (w :: stack) m)
    (hs : setLocal? locals index w = some locals') :
    wp symbols (storeWord index) (InFrame A heap (locals' ++ outer) stack) m := by
  refine wp_append.2 (wp_mono (h.wp_pop (by decide) (by decide) (by decide)) fun m₁ h₁ => ?_)
  obtain ⟨h₁, hget₁, -⟩ := h₁
  exact h₁.wp_writeLocal (hget₁ ▸ hs)

theorem wp_increment {value : Int} (h : InFrame A heap (locals ++ outer) stack m)
    (hw : local? locals index = some w)
    (hs : setLocal? locals index (BitVec.ofInt 32 (w.toInt + value)) = some locals') :
    wp symbols (increment index value) (InFrame A heap (locals' ++ outer) stack) m := by
  have hsum : w + BitVec.ofInt 32 value = BitVec.ofInt 32 (w.toInt + value) := by
    rw [BitVec.ofInt_add, BitVec.ofInt_toInt]
  have hread : (locals ++ outer)[index.toNat]? = some w ∧ 4 * index = 4 * (index.toNat : Int) := by
    obtain ⟨i, rfl, hi⟩ := local?_eq_some hw
    rw [Int.toNat_natCast]
    exact ⟨by rw [List.getElem?_append_left (List.getElem?_eq_some_iff.1 hi).1, hi], rfl⟩
  unfold increment
  refine h.wp_readBase hread.2 hread.1 ?_
  have h₁ := h.set (r := .t0) w (by decide) (by decide)
  -- either way the sum ends up in the same register
  split
  · refine wp_step rfl ((h₁.set _ (by decide) (by decide)).wp_writeLocal ?_)
    simpa [hsum] using hs
  · have h₂ := h₁.set (r := .t1) (BitVec.ofInt 32 value) (by decide) (by decide)
    refine wp_step rfl (wp_step rfl ((h₂.set _ (by decide) (by decide)).wp_writeLocal ?_))
    simpa [hsum] using hs

/-! ### The operand stack -/

theorem wp_adjust {n : Nat} (h : InFrame A heap base stack m) (hn : n ≤ stack.length) :
    wp symbols (adjust (4 * n)) (InFrame A heap base (stack.drop n)) m :=
  h.wp_drop rfl hn fun _ h' _ _ => wp_nil.2 h'

theorem wp_duplicateTop (h : InFrame A heap base (w :: stack) m)
    (room : stack.length + 2 + base.length ≤ A.capacity) :
    wp symbols duplicateTop (InFrame A heap base (w :: w :: stack)) m := by
  refine h.wp_peek (i := 0) rfl rfl ?_
  refine wp_mono ((h.set w (by decide) (by decide)).wp_push (by decide) room) fun m' h' => ?_
  rw [Machine.get_set_self (by decide)] at h'
  exact h'.1

theorem wp_swap (h : InFrame A heap base (x :: y :: stack) m) :
    wp symbols swap (InFrame A heap base (y :: x :: stack)) m := by
  refine h.wp_peek (i := 0) rfl rfl ?_
  have h₁ := h.set (r := .t0) x (by decide) (by decide)
  refine h₁.wp_peek (i := 1) rfl rfl ?_
  refine (h₁.set (r := .t1) y (by decide) (by decide)).wp_poke (i := 0) rfl (by simp) fun m₂ h₂ hget₂ => ?_
  refine h₂.wp_poke (i := 1) rfl (by simp) fun m₃ h₃ _ => wp_nil.2 ?_
  simpa [hget₂] using h₃

theorem take_zipIdx {α : Type} (l : List α) (k n : Nat) : (l.zipIdx k).take n = (l.take n).zipIdx k :=
  List.ext_getElem (by simp) fun i _ _ => by simp

/-- The top `count` words are copied below the top `depth` words. -/
theorem wp_duplicate {depth count : Nat} (h : InFrame A heap base stack m) (hd : depth ≤ 4)
    (hc : count ≤ depth) (hlen : depth ≤ stack.length)
    (room : stack.length + count + base.length ≤ A.capacity) :
    wp symbols (duplicate depth count)
      (InFrame A heap base (stack.take depth ++ stack.take count ++ stack.drop depth)) m := by
  unfold duplicate
  simp only [List.append_assoc, take_zipIdx]
  have hrs : (scratch.take depth).length = depth := by simp [scratch]; omega
  have hnd : (scratch.take depth).Nodup := (List.take_sublist ..).nodup (by decide)
  have hmem {r : Register} (hr : r ∉ scratch) : r ∉ scratch.take depth := fun h' => hr (List.mem_of_mem_take h')
  have hsp : Register.sp ∉ scratch.take depth := hmem (by decide)
  have hzero : Register.zero ∉ scratch.take depth := hmem (by decide)
  have hfp : Register.fp ∉ scratch.take depth := hmem (by decide)
  generalize scratch.take depth = rs at *
  refine h.wp_peeks rs (fun i => 4 * (i : Int)) (fun i => i) (fun i => stack.getD i 0) (fun i _ => rfl)
    (fun i hi => ?_) hnd hzero hsp hfp fun m₁ h₁ hget₁ _ _ => ?_
  · rw [Nat.zero_add, hrs] at hi
    rw [List.getD_eq_getElem _ _ (by omega)]
    exact List.getElem?_eq_getElem (by omega)
  refine h₁.wp_grow (n := count) (by omega) (by omega) fun m₂ junk hjunk h₂ hget₂ => ?_
  -- from here on the registers hold the top words of the old stack
  have htop : rs.map m₂.get = stack.take depth := by
    refine List.ext_getElem (by simp; omega) fun i h1 h2 => ?_
    rw [List.length_map] at h1
    rw [List.getElem_map, hget₂ _ fun h' => hsp (h' ▸ List.getElem_mem h1), hget₁ i h1, Nat.zero_add,
      List.getElem_take, List.getD_eq_getElem]
  refine h₂.wp_pokes rs (fun i => 4 * (i : Int)) 0 (fun i => by simp) (by simp; omega) fun m₃ h₃ hget₃ => ?_
  rw [htop, hrs, Nat.zero_add, Nat.zero_add, List.take_zero, List.nil_append] at h₃
  split
  · next heq =>
    subst heq
    rw [List.drop_left' hjunk] at h₃
    rw [List.take_append_drop]
    exact wp_nil.2 h₃
  · rw [← List.append_nil (List.map ..)]
    refine h₃.wp_pokes (rs.take count) (fun i => 4 * ((depth : Int) + i)) depth (fun i => by simp)
      (by simp; omega) fun m₄ h₄ _ => wp_nil.2 ?_
    have htop' : (rs.take count).map m₃.get = stack.take count := by
      rw [funext hget₃, List.map_take, htop, List.take_take, Nat.min_eq_left hc]
    have hlen' : (rs.take count).length = count := by rw [List.length_take]; omega
    have hrest : (stack.take depth ++ (junk ++ stack).drop depth).drop (depth + count) = stack.drop depth := by
      rw [List.drop_append, List.drop_eq_nil_of_le (by rw [List.length_take]; omega), List.nil_append, List.drop_drop,
        List.length_take, Nat.min_eq_left hlen, List.drop_append, List.drop_eq_nil_of_le (by omega),
        List.nil_append, hjunk]
      congr 1; omega
    rw [htop', hlen', Nat.add_zero, List.take_left' (by simp; omega), hrest] at h₄
    simpa using h₄

/-! ### Integers -/

theorem wp_combine {op : Mnemonic} (h : InFrame A heap base (y :: x :: stack) m)
    (hop : op.combine? x y = some z) :
    wp symbols (combine op) (InFrame A heap base (z :: stack)) m := by
  refine h.wp_peek (i := 1) rfl rfl ?_
  have h₁ := h.set (r := .t0) x (by decide) (by decide)
  refine h₁.wp_peek (i := 0) rfl rfl ?_
  have h₂ := h₁.set (r := .t1) y (by decide) (by decide)
  refine wp_cons.2 ⟨_, by simp [Machine.execute, hop]; rfl, ?_⟩
  have h₃ := h₂.set (r := .t0) z (by decide) (by decide)
  refine h₃.wp_drop (n := 1) rfl (by simp) fun m₄ h₄ hget₄ _ => ?_
  refine h₄.wp_poke (i := 0) rfl (by simp) fun m₅ h₅ _ => wp_nil.2 ?_
  simpa [hget₄] using h₅

theorem wp_negate (h : InFrame A heap base (x :: stack) m) :
    wp symbols negate (InFrame A heap base (BitVec.ofInt 32 (-x.toInt) :: stack)) m := by
  refine h.wp_peek (i := 0) rfl rfl (wp_step rfl ?_)
  have h₁ := (h.set (r := .t0) x (by decide) (by decide)).set (r := .t0) (0#32 - x) (by decide) (by decide)
  rw [Machine.get_set_self (by decide)]
  refine h₁.wp_poke (i := 0) rfl (by simp) fun m₂ h₂ _ => wp_nil.2 ?_
  have hneg : 0#32 - x = BitVec.ofInt 32 (-x.toInt) := by
    rw [BitVec.ofInt_neg, BitVec.ofInt_toInt, BitVec.zero_sub]
  rwa [Machine.get_set_self (by decide), hneg] at h₂

theorem wp_narrow {n : Nat} {shift : Mnemonic} (h : InFrame A heap base (x :: stack) m) (hb : n < 32)
    (hs : shift.combineImm? (x <<< n) n = some z) :
    wp symbols (narrow n shift) (InFrame A heap base (z :: stack)) m := by
  refine h.wp_peek (i := 0) rfl rfl ?_
  have h₁ := h.set (r := .t0) x (by decide) (by decide)
  refine wp_cons.2 ⟨(m.set .t0 x).set .t0 (x <<< n), ?_, ?_⟩
  · simp [Machine.execute, Mnemonic.combineImm?, show (n : Int) < 32 by omega]
  have h₂ := h₁.set (r := .t0) (x <<< n) (by decide) (by decide)
  refine wp_cons.2 ⟨((m.set .t0 x).set .t0 (x <<< n)).set .t0 z, ?_, ?_⟩
  · simp [Machine.execute, hs]
  have h₃ := h₂.set (r := .t0) z (by decide) (by decide)
  refine h₃.wp_poke (i := 0) rfl (by simp) fun m₄ h₄ _ => wp_nil.2 ?_
  simpa using h₄

end JvmAot.InFrame
