import JvmAot.Proofs.Lowering.Labels
import Mathlib.Algebra.Order.Ring.Int

/-! # Compiled methods run like their bytecode

For methods made of the instructions that concern only their frame. `reaches_of_step`: what the machine
does for one step of the virtual machine. `reaches_of_reaches`: what it does for a run. -/

namespace JvmAot

open Template

theorem Instruction.length_of_operate? {i : Instruction} {locals stack locals' stack' : List Word}
    (h : i.operate? locals stack = some (locals', stack')) : locals'.length = locals.length := by
  have hset {locals locals' : List Word} {index : Int} {w : Word} (h : setLocal? locals index w = some locals') :
      locals'.length = locals.length := by
    obtain ⟨j, -, -, rfl⟩ := setLocal?_eq_some h
    exact List.length_set
  unfold operate? at h
  split at h
  · split at h
    · obtain ⟨high, -, h⟩ := Option.bind_eq_some_iff.1 h
      obtain ⟨low, -, h⟩ := Option.bind_eq_some_iff.1 h
      cases h; rfl
    · obtain ⟨w, -, h⟩ := Option.map_eq_some_iff.1 h
      cases h; rfl
  · split at h
    · obtain ⟨locals₁, hlow, h⟩ := Option.bind_eq_some_iff.1 h
      obtain ⟨locals₂, hhigh, h⟩ := Option.bind_eq_some_iff.1 h
      cases h
      exact (hset hhigh).trans (hset hlow)
    · obtain ⟨locals₁, hw, h⟩ := Option.map_eq_some_iff.1 h
      cases h
      exact hset hw
    · cases h
  · obtain ⟨w, -, h⟩ := Option.bind_eq_some_iff.1 h
    obtain ⟨locals₁, hs, h⟩ := Option.bind_eq_some_iff.1 h
    cases h
    exact hset hs
  all_goals
    obtain ⟨words, -, h⟩ := Option.map_eq_some_iff.1 h
    cases h; rfl

namespace Image.HasMethod

variable {σ : Type} {img : Image} {context : Context σ} {scope : Scope} {state : σ} {argumentWords : Nat}
  {code : Code} {entry : Word} {place : Nat → Word} {A : Area} {heap : Memory} {outer : List Word}
  {m : Machine} {f g : Frame}
  (hm : img.HasMethod context scope argumentWords code state entry place)
include hm

/-- A method opens its frame before its first instruction. -/
theorem reaches_start {count : Nat} (hcount : code.maxLocals = count) (hargs : argumentWords ≤ count)
    (h : Stacked A heap outer m) (room : outer.length + (count + 2) ≤ A.capacity) :
    ∃ rest m', argumentWords + rest.length = count ∧ img.Reaches (entry, m) (place 0, m') ∧
      InFrame A heap (m.arguments argumentWords ++ rest ++ m.get .ra :: m.get .fp :: outer) [] m' := by
  have henter := hm.enter
  rw [hcount] at henter
  obtain ⟨m', hr, rest, hlen, hf⟩ := reaches_of_wp henter (h.wp_enter hargs hm.few room)
  exact ⟨rest, m', hlen, hr, hf⟩

theorem reaches_of_step (h : InFrame A heap (f.locals ++ outer) f.stack m)
    (hs : f.step code.instructions = some (.goesOn g))
    (room : g.stack.length + (f.locals ++ outer).length ≤ A.capacity) :
    ∃ m', img.Reaches (place f.next, m) (place g.next, m') ∧
      InFrame A heap (g.locals ++ outer) g.stack m' ∧ g.locals.length = f.locals.length := by
  obtain ⟨i, hi, ⟨result, -, ho⟩ | ⟨stack, hb, next, hnext, ho⟩ | ⟨stack, hb, ho⟩ | ⟨locals, stack, hop, ho⟩⟩ :=
    Frame.step_cases hs
  · cases ho
  · cases ho
    obtain ⟨c, hl, hrun⟩ := scope.lower_of_branch? hb
    obtain ⟨label, hlabel, hc⟩ := hm.holds_branch hi hl
    -- the label stands in front of the instruction that the virtual machine goes to
    obtain ⟨hlt, htarget, -⟩ := List.findIdx?_eq_some_iff_getElem.1 hnext
    have hsymbol := hm.label (List.getElem?_eq_getElem hlt) (by rw [beq_iff_eq.1 htarget, hlabel])
    obtain ⟨m', hr, hf⟩ := hrun h hc hsymbol
    exact ⟨m', hr, hf, rfl⟩
  · cases ho
    obtain ⟨c, hl, hrun⟩ := scope.lower_of_branch? hb
    obtain ⟨label, hlabel, hc⟩ := hm.holds_branch hi hl
    obtain ⟨m', hr, hf⟩ := hrun h hc rfl
    exact ⟨m', hr, hf, rfl⟩
  · cases ho
    obtain ⟨c, hl, hrun⟩ := scope.implements_of_operate? hop
    obtain ⟨m', hr, hf⟩ := reaches_of_wp (hm.holds_code hi hl) (hrun h room)
    exact ⟨m', hr, hf, Instruction.length_of_operate? hop⟩

theorem reaches_of_reaches {depth : Nat} (h : InFrame A heap (f.locals ++ outer) f.stack m)
    (hr : Frame.Reaches code.instructions depth f g)
    (room : depth + (f.locals ++ outer).length ≤ A.capacity) :
    ∃ m', img.Reaches (place f.next, m) (place g.next, m') ∧
      InFrame A heap (g.locals ++ outer) g.stack m' ∧ g.locals.length = f.locals.length := by
  induction hr with
  | refl => exact ⟨m, .refl _, h, rfl⟩
  | tail _ hstep ih =>
    obtain ⟨m₁, hr₁, hf₁, hlen₁⟩ := ih
    obtain ⟨hstep, hdepth⟩ := hstep
    rw [List.length_append] at room
    obtain ⟨m₂, hr₂, hf₂, hlen₂⟩ := hm.reaches_of_step hf₁ hstep (by rw [List.length_append]; omega)
    exact ⟨m₂, hr₁.trans hr₂, hf₂, hlen₂.trans hlen₁⟩

/-- A return closes the frame, whatever else is on the operand stack. -/
theorem reaches_of_result? {k : Nat} {i : Instruction} {locals stack result : List Word} {v w : Word}
    (hi : code.instructions[k]? = some i) (hres : i.opcode.result? stack = some result)
    (h : InFrame A heap (locals ++ v :: w :: outer) stack m) (hlen : code.maxLocals = locals.length) :
    ∃ m', img.Reaches (place k, m) (jumpTarget v, m') ∧ Stacked A heap outer m' ∧ m'.get .fp = w ∧
      m'.Carries result := by
  obtain ⟨c, hl, hrun⟩ := scope.lower_of_result? hres
  have hc := hm.holds_code hi hl
  rw [List.map_append] at hc
  obtain ⟨d, hpop, next, hjump, -⟩ := holds_append.1 hc
  obtain ⟨m₁, hr₁, ⟨stack₁, hf₁⟩, hcarry⟩ := reaches_of_wp hpop (hrun h)
  obtain ⟨hsymbol, b, hleave⟩ := hm.finish
  rw [hlen] at hleave
  obtain ⟨m₂, hr₂, hst, hfp, hkeep⟩ := reaches_leave hf₁ hleave
  have hstep : img.step (d, m₁) = some (place code.instructions.length, m₁) := by
    simp [Image.step, hjump, hsymbol]
  exact ⟨m₂, hr₁.trans (.head hstep hr₂), hst, hfp, hcarry.congr hkeep⟩

end Image.HasMethod

/-- The assembly text of a method runs like its bytecode, in every image that holds it and with every
content of the argument registers. As long as the virtual machine gets on, with at most `depth` words on
its operand stack, the machine comes to the code of each instruction in turn. There the words from `sp` up
to `s0` are the operand stack, those from `s0` on are the locals, and behind them are the return address and
the frame pointer of the caller. When the method returns, the machine is back at the caller with the result
in registers and its stack as it was. No memory outside of the stack area is ever written. And the text can
be loaded anywhere. -/
theorem MethodDecl.listing_simulates {σ : Type} (context : Context σ) (header : Int) (className : String)
    (d : MethodDecl) (state : σ) {code : Code} {type : MethodType} (hbody : d.body? = some code)
    (htype : MethodType.parse d.descriptor = .ok type)
    (haccepted : (d.listing context header className state).failure = none)
    (hoffsets : code.instructions.Pairwise fun i j => i.offset < j.offset)
    (hargs : d.argumentWords type ≤ code.maxLocals) :
    (∀ (img : Image) (entry stop : Word) (m : Machine) (depth : Nat) (A : Area),
      img.Holds (d.listing context header className state).lines entry stop →
      A.top = m.get .sp → A.capacity = code.maxLocals + 2 + depth →
      img.symbol (Symbol.ofMethod className d.name d.descriptor) = some entry ∧
      ∃ rest : List Word, d.argumentWords type + rest.length = code.maxLocals ∧
      ∀ f, Frame.Reaches code.instructions depth (.entry (m.arguments (d.argumentWords type) ++ rest)) f →
        (∃ pc m', img.Holds ((d.bodyScope header className code).linesBefore context (d.argumentWords type)
            code state f.next) entry pc ∧
          img.Reaches (entry, m) (pc, m') ∧
          InFrame A m.mem (f.locals ++ [m.get .ra, m.get .fp]) f.stack m') ∧
        ∀ result, f.step code.instructions = some (.returns result) →
          ∃ m', img.Reaches (entry, m) (jumpTarget (m.get .ra), m') ∧ m'.get .sp = m.get .sp ∧
            m'.get .fp = m.get .fp ∧ m'.Carries result ∧ ∀ x, ¬ A.Contains x → m'.mem x = m.mem x) ∧
    ∀ (extra : Instr → Nat) (start : Nat),
      start + Image.room extra (d.listing context header className state).lines ≤ 2 ^ 31 →
      (Image.load extra (d.listing context header className state).lines start).Holds
        (d.listing context header className state).lines (Image.address start)
        (Image.address (start + Image.room extra (d.listing context header className state).lines)) := by
  refine ⟨fun img entry stop m depth A hholds htop hcap => ?_, fun extra start hfits => ?_⟩
  · obtain ⟨place, hm⟩ := Image.hasMethod_of_holds hbody htype haccepted hholds
    refine ⟨hm.symbol_eq, ?_⟩
    obtain ⟨count, hcount⟩ : ∃ count : Nat, code.maxLocals = count := ⟨_, (Int.toNat_of_nonneg (by omega)).symm⟩
    have hempty : Stacked A m.mem [] m :=
      ⟨Nat.zero_le _, by rw [← htop]; simp [Area.slot], by simp, fun _ => rfl⟩
    obtain ⟨rest, m₀, hlen, hr₀, hf₀⟩ := hm.reaches_start hcount (by omega) hempty (by simp; omega)
    refine ⟨rest, by omega, fun f hf => ?_⟩
    have hlen₀ : (m.arguments (d.argumentWords type) ++ rest).length = count := by
      rw [List.length_append, Machine.length_arguments hm.few, hlen]
    obtain ⟨m₁, hr₁, hf₁, hlen₁⟩ := hm.reaches_of_reaches hf₀ hf
      (by rw [List.length_append, Frame.entry, hlen₀]; simp; omega)
    have hreach := hr₀.trans hr₁
    refine ⟨⟨place f.next, m₁, hm.before (hf.next_le (Nat.zero_le _)), hreach, hf₁⟩, fun result hres => ?_⟩
    obtain ⟨i, hi, hcases⟩ := Frame.step_cases hres
    obtain ⟨result', hresult, ho⟩ : ∃ result', i.opcode.result? f.stack = some result' ∧
        Progress.returns result = .returns result' := by
      rcases hcases with h | ⟨_, _, _, _, ho⟩ | ⟨_, _, ho⟩ | ⟨_, _, _, ho⟩
      · exact h
      all_goals cases ho
    cases ho
    have hcount' : code.maxLocals = f.locals.length := by rw [hcount, hlen₁, Frame.entry, hlen₀]
    obtain ⟨m₂, hr₂, hst₂, hfp₂, hcarry₂⟩ := hm.reaches_of_result? hi hresult hf₁ hcount'
    refine ⟨m₂, hreach.trans hr₂, ?_, hfp₂, hcarry₂, fun x hx => hst₂.outside hx⟩
    rw [hst₂.sp, ← htop]
    simp [Area.slot]
  · refine Image.load_holds (isCode_listing hbody htype haccepted)
      (nodup_labels hbody htype haccepted ?_) hfits
    exact List.pairwise_map.2 (hoffsets.imp fun h => Int.ne_of_lt h)

/-! ### A method with a loop -/

/-- A static method that counts its argument down to zero. -/
def countdown : MethodDecl where
  flags := ⟨8⟩
  name := "countdown"
  descriptor := "(I)I"
  code := some
    { maxStack := 1
      maxLocals := 1
      instructions :=
        [{ offset := 1, opcode := .load .int }, { offset := 2, opcode := .ifZero .le, target := 11 },
          { offset := 5, opcode := .iinc, increment := -1 }, { offset := 8, opcode := .goto, target := 1 },
          { offset := 11, opcode := .load .int }, { offset := 12, opcode := .returnValue .int }]
      handlers := [] }

/-- Nothing is known about other classes. -/
def noClasses : Context Unit where
  answer _ _ := (.error (Cause.exceptionHandlers "" "" : Failure), ())

/-- A machine about to run a method with the argument `w`. -/
def calledWith (w : Word) : Machine where
  regs := fun
    | .sp => 0x10000
    | .arg _ => w
    | _ => 0x4000
  mem := fun _ => 0

theorem branchTargets_countdown {code : Code} (h : countdown.code = some code) :
    branchTargets code.instructions = [1, 11] := by
  have hdups : (code.instructions.flatMap Instruction.targets).eraseDups = [11, 1] := by
    cases h
    decide +kernel
  rw [branchTargets, hdups]
  simp [List.mergeSort]

/-- The method is accepted, and its text fits into memory. -/
theorem listing_countdown : (countdown.listing noClasses 12 "Main" ()).failure = none ∧
    0 + Image.room (fun _ => 0) (countdown.listing noClasses 12 "Main" ()).lines ≤ 2 ^ 31 := by
  have hbody : countdown.body? = some (countdown.code.getD default) := rfl
  have htype : MethodType.parse countdown.descriptor = .ok ⟨[⟨0, .int, ""⟩], some ⟨0, .int, ""⟩⟩ := by decide +kernel
  have htargets := branchTargets_countdown (show countdown.code = some (countdown.code.getD default) from rfl)
  simp only [MethodDecl.listing, hbody, htype, MethodDecl.bodyListing, htargets]
  decide +kernel

theorem countdown_one_returns_zero :
    ∃ m', (Image.load (fun _ => 0) (countdown.listing noClasses 12 "Main" ()).lines 0).Reaches
      (Image.address 0, calledWith 1) (0x4000, m') ∧ m'.get .sp = 0x10000 ∧ m'.Carries [0] := by
  obtain ⟨hrun, hload⟩ := MethodDecl.listing_simulates noClasses 12 "Main" countdown () rfl
    (show MethodType.parse "(I)I" = .ok ⟨[⟨0, .int, ""⟩], some ⟨0, .int, ""⟩⟩ by decide +kernel) listing_countdown.1
    (by decide) (by decide)
  obtain ⟨-, rest, hlen, hrun⟩ := hrun _ _ _ (calledWith 1) 1 ⟨0x10000, 4, by decide⟩
    (hload (fun _ => 0) 0 listing_countdown.2) rfl rfl
  obtain rfl : rest = [] := by
    rw [← List.length_eq_zero_iff]
    have hone : (1 : Int) + rest.length = 1 := hlen
    omega
  -- once around the loop
  have hloop : Frame.Reaches (countdown.code.get rfl).instructions 1 (.entry [1]) ⟨5, [0], [0]⟩ := by
    refine .head (b := ⟨1, [1], [1]⟩) (by decide) (.head (b := ⟨2, [1], []⟩) (by decide) ?_)
    refine .head (b := ⟨3, [0], []⟩) (by decide) (.head (b := ⟨0, [0], []⟩) (by decide) ?_)
    refine .head (b := ⟨1, [0], [0]⟩) (by decide) (.head (b := ⟨4, [0], []⟩) (by decide) ?_)
    exact .single (by decide)
  obtain ⟨m', hreach, hsp, -, hcarry, -⟩ := (hrun _ hloop).2 [0] (by decide)
  exact ⟨m', hreach, hsp, hcarry⟩

end JvmAot
