import JvmAot.Proofs.Lowering.Templates
import Mathlib.Data.List.Basic

/-! # Opening and closing frames

The code around the body of a method. `wp_enter`: opening a frame puts the arguments in the first locals,
above them the return address and the frame pointer of the caller, and above those lies what was on the
stack before. `reaches_leave`: closing a frame gives back all of that, whatever was on the operand stack.
The result is in registers meanwhile. -/

namespace JvmAot

open Template

/-- The words in the first `n` argument registers. -/
def Machine.arguments (m : Machine) (n : Nat) : List Word :=
  (Register.arguments.take n).map m.get

/-- The first argument registers hold these words. -/
def Machine.Carries (m : Machine) (words : List Word) : Prop :=
  m.arguments words.length = words

variable {A : Area} {heap : Memory} {locals outer stack words : List Word} {m m' : Machine} {v w : Word}
  {symbols : String → Option Word}

theorem Machine.length_arguments {n : Nat} (h : n ≤ Register.arguments.length) :
    (m.arguments n).length = n := by
  rw [Machine.arguments, List.length_map, List.length_take_of_le h]

theorem Machine.arguments_congr (hget : ∀ i, m'.get (.arg i) = m.get (.arg i)) (n : Nat) :
    m'.arguments n = m.arguments n := by
  refine List.map_congr_left fun r hr => ?_
  obtain ⟨i, -, rfl⟩ := List.mem_map.1 (List.mem_of_mem_take hr)
  exact hget i

theorem Machine.Carries.congr (h : m.Carries words) (hget : ∀ i, m'.get (.arg i) = m.get (.arg i)) :
    m'.Carries words :=
  (Machine.arguments_congr hget _).trans h

theorem Stacked.wp_enter {count n : Nat} (h : Stacked A heap outer m) (hn : n ≤ count)
    (h8 : n ≤ Register.arguments.length) (room : outer.length + (count + 2) ≤ A.capacity) :
    wp symbols (enter count n) (fun m' => ∃ rest, n + rest.length = count ∧
      InFrame A heap (m.arguments n ++ rest ++ m.get .ra :: m.get .fp :: outer) [] m') m := by
  unfold enter
  refine h.wp_grow (n := count + 2) (by omega) room fun m₁ junk hjunk h₁ hget₁ => ?_
  obtain ⟨fresh, x, y, rfl, hfresh⟩ : ∃ fresh x y, junk = fresh ++ [x, y] ∧ fresh.length = count := by
    have hlen : (junk.drop count).length = 2 := by simp [hjunk]
    obtain ⟨x, y, hxy⟩ := List.length_eq_two.1 hlen
    exact ⟨junk.take count, x, y, by rw [← hxy, List.take_append_drop], by simp [hjunk]⟩
  rw [List.append_assoc] at h₁
  -- the return address and the frame pointer of the caller
  refine h₁.wp_write (i := count) (j := count) h₁.sp (Int.mul_comm ..) (by simp; omega) (Nat.add_comm ..)
    (Nat.le_refl _) fun m₂ h₂ hget₂ => ?_
  rw [hget₁ _ (by decide), List.set_append_right _ _ (by omega), hfresh, Nat.sub_self] at h₂
  refine h₂.wp_write (i := count + 1) (j := count + 1) h₂.sp (by omega) (by simp; omega) (Nat.add_comm ..)
    (Nat.le_refl _) fun m₃ h₃ hget₃ => ?_
  rw [hget₂, hget₁ _ (by decide), List.set_append_right _ _ (by omega), hfresh, Nat.add_sub_cancel_left] at h₃
  -- the arguments
  have h₄ : InFrame A heap (fresh ++ m.get .ra :: m.get .fp :: outer) [] (m₃.set .fp (m₃.get .sp)) :=
    ⟨h₃.set _ (by decide), by rw [Machine.get_set_self (by decide), h₃.sp]; rfl⟩
  refine wp_step rfl ?_
  rw [← List.append_nil (List.map ..)]
  refine h₄.wp_writeBases _ (fun i => (i : Int) * 4) (fun i => Int.mul_comm ..) (by simp; omega)
    fun m₅ h₅ _ => wp_nil.2 ⟨fresh.drop n, by simp; omega, ?_⟩
  have hregs : (Register.arguments.take n).map (m₃.set .fp (m₃.get .sp)).get = m.arguments n :=
    Machine.arguments_congr (fun i => by simp [hget₃, hget₂, hget₁]) n
  have hlen : (Register.arguments.take n).length = n := List.length_take_of_le h8
  rw [hregs, hlen, Nat.zero_add, List.take_zero, List.nil_append,
    List.drop_append_of_le_length (by omega)] at h₅
  rwa [List.append_assoc]

/-- Closes a frame and returns. -/
theorem Image.reaches_leave {img : Image} {a b : Word}
    (h : InFrame A heap (locals ++ v :: w :: outer) stack m)
    (hc : img.Holds ((leave locals.length).map Line.instr) a b) :
    ∃ m', img.Reaches (a, m) (jumpTarget v, m') ∧ Stacked A heap outer m' ∧ m'.get .fp = w ∧
      ∀ i, m'.get (.arg i) = m.get (.arg i) := by
  obtain ⟨c, hstraight, next, hret, -⟩ := Image.holds_append.1 (show img.Holds (((leave locals.length).take 4).map
    Line.instr ++ [.instr .ret]) a b from hc)
  have hclose : wp img.symbol ((leave locals.length).take 4) (fun m' => m'.get .ra = v ∧
      Stacked A heap outer m' ∧ m'.get .fp = w ∧ ∀ i, m'.get (.arg i) = m.get (.arg i)) m := by
    have hlen : (locals ++ v :: w :: outer).length = locals.length + 2 + outer.length := by simp; omega
    -- the operand stack is dropped
    have h₁ := h.stacked.pop stack.length
    rw [List.drop_left, List.length_append, Nat.add_sub_cancel_left, ← h.fp] at h₁
    refine wp_step rfl ?_
    refine h₁.wp_read (w := w) (i := locals.length + 1) (j := locals.length + 1) h₁.sp (by omega) (by omega)
      (Nat.add_comm ..) (by simp) ?_
    have h₂ := h₁.set (r := .fp) w (by decide)
    refine h₂.wp_read (w := v) (i := locals.length) (j := locals.length) h₂.sp (Int.mul_comm ..) (by omega)
      (Nat.add_comm ..) (by simp) ?_
    have h₃ := h₂.set (r := .ra) v (by decide)
    refine h₃.wp_drop (n := locals.length + 2) (by omega) (by omega) fun m₄ h₄ hget₄ _ => wp_nil.2 ?_
    refine ⟨by simp [hget₄], by simpa using h₄, by simp [hget₄], fun i => by simp [hget₄]⟩
  obtain ⟨m', hreach, hra, hrest⟩ := Image.reaches_of_wp hstraight hclose
  refine ⟨m', hreach.trans (.single ?_), hrest⟩
  simp only [Image.step, hret, hra]

theorem InFrame.wp_popResult {base : List Word} {kind : ValueKind} {result : List Word}
    (h : InFrame A heap base stack m) (hr : (Opcode.returnValue kind).result? stack = some result) :
    wp symbols (popResult kind) (fun m' => (∃ stack', InFrame A heap base stack' m') ∧ m'.Carries result) m := by
  unfold popResult
  simp only [Opcode.result?] at hr
  split at hr
  · next low high rest hwide =>
    cases hr
    rw [if_pos hwide]
    refine wp_append.2 (wp_mono (h.wp_pop (by decide) (by decide) (by decide)) fun m₁ h₁ => ?_)
    obtain ⟨h₁, hlow, -⟩ := h₁
    refine wp_mono (h₁.wp_pop (by decide) (by decide) (by decide)) fun m₂ h₂ => ?_
    obtain ⟨h₂, hhigh, hkeep⟩ := h₂
    refine ⟨⟨_, h₂⟩, ?_⟩
    simp [Machine.Carries, Machine.arguments, Register.arguments, hhigh, hkeep, hlow, List.finRange_succ]
  · next rest hwide =>
    cases hr
    rw [if_neg (by simp [hwide])]
    refine wp_mono (h.wp_pop (by decide) (by decide) (by decide)) fun m₁ h₁ => ⟨⟨_, h₁.1⟩, ?_⟩
    simp [Machine.Carries, Machine.arguments, Register.arguments, h₁.2.1, List.finRange_succ]
  · cases hr

/-- The results that a return can have. -/
theorem length_le_of_result? {op : Opcode} {result : List Word} (h : op.result? stack = some result) :
    result.length ≤ 2 := by
  unfold Opcode.result? at h
  split at h
  · cases h
    exact Nat.zero_le 2
  · split at h
    · cases h
      exact Nat.le_refl 2
    · cases h
      exact Nat.le_succ 1
    · cases h
  · cases h

theorem InFrame.wp_pushResult {base result : List Word} (h : InFrame A heap base stack m)
    (hcarry : m.Carries result) (hlen : result.length ≤ 2)
    (room : stack.length + result.length + base.length ≤ A.capacity) :
    wp symbols (pushResult result.length) (InFrame A heap base (result ++ stack)) m := by
  match result with
  | [] => exact wp_nil.2 h
  | [x] =>
    have hx : m.get .a0 = x := by
      simpa [Machine.Carries, Machine.arguments, Register.arguments, List.finRange_succ] using hcarry
    refine wp_mono (h.wp_push (by decide) room) fun m' h' => ?_
    rw [hx] at h'
    exact h'.1
  | [x, y] =>
    have hxy : m.get .a0 = x ∧ m.get .a1 = y := by
      simpa [Machine.Carries, Machine.arguments, Register.arguments, List.finRange_succ] using hcarry
    refine h.wp_grow (n := 2) rfl (by simp at room; omega) fun m₁ junk hjunk h₁ hget₁ => ?_
    obtain ⟨u, v, rfl⟩ := List.length_eq_two.1 hjunk
    refine h₁.wp_poke (i := 0) rfl (by simp) fun m₂ h₂ hget₂ => ?_
    refine h₂.wp_poke (i := 1) rfl (by simp) fun m₃ h₃ _ => wp_nil.2 ?_
    simpa [hget₂, hget₁, hxy] using h₃
  | _ :: _ :: _ :: _ => simp at hlen

/-- Takes arguments off the operand stack, where the last one is on top. -/
theorem InFrame.wp_popArguments {base arguments : List Word}
    (h : InFrame A heap base (arguments.reverse ++ stack) m)
    (h8 : arguments.length ≤ Register.arguments.length) :
    wp symbols (popArguments arguments.length) (fun m' => InFrame A heap base stack m' ∧ m'.Carries arguments ∧
      m'.get .fp = m.get .fp ∧ m'.mem = m.mem) m := by
  unfold popArguments
  have hlen : (Register.arguments.take arguments.length).length = arguments.length := List.length_take_of_le h8
  have hmem {r : Register} (hr : r ∉ Register.arguments) : r ∉ Register.arguments.take arguments.length :=
    fun h' => hr (List.mem_of_mem_take h')
  refine h.wp_peeks _ (fun i => 4 * ((arguments.length : Int) - 1 - i)) (fun i => arguments.length - 1 - i)
    (fun i => arguments.getD i 0) (fun i hi => by omega) (fun i hi => ?_)
    ((List.take_sublist ..).nodup (by decide)) (hmem (by decide)) (hmem (by decide)) (hmem (by decide))
    fun m₁ h₁ hget₁ hkeep₁ hmem₁ => ?_
  · rw [Nat.zero_add, hlen] at hi
    rw [List.getElem?_append_left (by rw [List.length_reverse]; omega), List.getElem?_reverse (by omega),
      List.getD_eq_getElem _ _ hi, List.getElem?_eq_getElem (by omega)]
    congr 2; omega
  have hcarry : m₁.Carries arguments := by
    rw [Machine.Carries, Machine.arguments]
    refine List.ext_getElem (by rw [List.length_map, hlen]) fun i h1 h2 => ?_
    rw [List.length_map] at h1
    rw [List.getElem_map, hget₁ i h1, Nat.zero_add, List.getD_eq_getElem _ _ h2]
  have hfp₁ : m₁.get .fp = m.get .fp := hkeep₁ _ (hmem (by decide))
  split
  · refine h₁.wp_drop rfl (by simp) fun m₂ h₂ hget₂ hmem₂ => wp_nil.2 ⟨?_, ?_, ?_, hmem₂.trans hmem₁⟩
    · rwa [List.drop_left' (List.length_reverse)] at h₂
    · exact hcarry.congr fun i => hget₂ _ (by simp)
    · rw [hget₂ _ (by decide), hfp₁]
  · next hzero =>
    obtain rfl : arguments = [] := List.length_eq_zero_iff.1 (by omega)
    exact wp_nil.2 ⟨h₁, hcarry, hfp₁, hmem₁⟩

end JvmAot
