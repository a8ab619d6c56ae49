import JvmAot.Proofs.Lowering.Simulation

/-! # Calls

The code of a call and the code around the body of the called method are made apart from each other.
Together they put the arguments into the first locals of the called method, in the order in which they were
pushed, and when the method returns, the caller goes on with its own frame and with the result in place of the
arguments (`Image.HasMethod.reaches_caller`). -/

namespace JvmAot

open Template

namespace Operand

/-- The operand stack after some values were pushed, one after the other. -/
def pushAll (values : List Operand) (stack : List Word) : List Word :=
  values.foldl (fun stack v => v.words ++ stack) stack

/-- The locals that hold some values, with the high word of each first. -/
def locals (values : List Operand) : List Word :=
  values.flatMap fun v => v.words.reverse

theorem pushAll_eq (values : List Operand) (stack : List Word) :
    pushAll values stack = (locals values).reverse ++ stack := by
  induction values generalizing stack with
  | nil => rfl
  | cons v values ih =>
    have hpush : pushAll (v :: values) stack = pushAll values (v.words ++ stack) := rfl
    rw [hpush, ih]
    simp [locals]

theorem length_locals (values : List Operand) :
    (locals values).length = (values.map fun v => v.words.length).sum := by
  simp [locals, List.length_flatMap]

end Operand

namespace Lowering

/-- The opcode of a call. -/
def Invocation.opcode : Invocation → Opcode
  | static => .invokestatic
  | special => .invokespecial
  | virtual => .invokevirtual

/-- The number of words that a call takes off the operand stack. -/
def Invocation.argumentWords (how : Invocation) (type : MethodType) : Nat :=
  if how = .static then type.parameterWords else type.parameterWords + 1

/-- The instructions that transfer control to the called method. -/
def transfer (header : Int) (how : Invocation) (target : MethodRef) (name descriptor : String) : List Instr :=
  match how, target.slot with
  | .virtual, some slot => callVirtual header slot
  | _, _ => [.call (Symbol.ofMethod target.className name descriptor)]

/-- The code of a call that is accepted. -/
theorem run_invoke {σ : Type} {context : Context σ} {state state' : σ} {header : Int} {how : Invocation}
    {slot tag : Nat} {owner name descriptor : String} {type : MethodType} {target : MethodRef}
    {code : List Instr} (htype : MethodType.parse descriptor = .ok type)
    (hanswer : context.answer (.method owner name descriptor) state = (.ok target, state'))
    (hname : how = .special → name ≠ MethodDecl.constructorName)
    (hrun : (invoke header how (some ⟨slot, .member tag owner name descriptor⟩)).run context state =
      ({ code }, state')) :
    how.argumentWords type ≤ Register.arguments.length ∧
      code = popArguments (how.argumentWords type) ++ transfer header how target name descriptor ++
        pushResult type.resultWords := by
  have hwords : (if (how == .static) = true then type.parameterWords else type.parameterWords + 1) =
      how.argumentWords type := by
    rw [Invocation.argumentWords]
    simp
  simp only [invoke, htype, hwords] at hrun
  split at hrun
  · simp [Lowering.fail, Lowering.run] at hrun
  next hfew =>
  simp only [run, hanswer, Prod.mk.injEq, and_true] at hrun
  split at hrun
  · simp at hrun
  refine ⟨by omega, ?_⟩
  cases how with
  | static =>
    cases hrun
    rfl
  | special =>
    simp only [if_neg (hname rfl)] at hrun
    cases hrun
    rfl
  | virtual =>
    cases hslot : target.slot with
    | none => simp [hslot] at hrun
    | some k =>
      simp only [hslot] at hrun
      cases hrun
      simp only [transfer, hslot]

theorem of_run_invoke_virtual {σ : Type} {context : Context σ} {state state' : σ} {header : Int} {slot tag : Nat}
    {owner name descriptor : String} {code : List Instr}
    (hrun : (invoke header .virtual (some ⟨slot, .member tag owner name descriptor⟩)).run context state =
      ({ code }, state')) :
    ∃ type target k, MethodType.parse descriptor = .ok type ∧
      context.answer (.method owner name descriptor) state = (.ok target, state') ∧ target.slot = some k ∧
      type.parameterWords + 1 ≤ Register.arguments.length ∧
      code = popArguments (type.parameterWords + 1) ++ callVirtual header k ++ pushResult type.resultWords := by
  cases htype : MethodType.parse descriptor with
  | error =>
    simp only [invoke, htype] at hrun
    cases hrun
  | ok type =>
    simp only [invoke, htype, beq_iff_eq, reduceCtorEq, if_false] at hrun
    split at hrun
    · cases hrun
    rename_i hfew
    rw [run] at hrun
    split at hrun
    case h_2 => cases hrun
    rename_i target state₁ hanswer
    obtain ⟨hcode, rfl⟩ := Prod.mk.inj hrun
    split at hcode
    · cases hcode
    cases hslot : target.slot with
    | none =>
      rw [hslot] at hcode
      cases hcode
    | some k =>
      rw [hslot] at hcode
      cases hcode
      exact ⟨type, target, k, rfl, hanswer, hslot, Nat.not_lt.1 hfew, rfl⟩

end Lowering

/-! ### From the caller to the called method and back -/

theorem Machine.Carries.get_a0 {m : Machine} {w : Word} {words : List Word} (h : m.Carries (w :: words)) :
    m.get .a0 = w := by
  simp only [Machine.Carries, Machine.arguments, Register.arguments, List.finRange_succ, List.map_cons,
    List.length_cons, List.take_succ_cons, List.cons.injEq] at h
  exact h.1

/-- Fetches the method of a virtual call from the vtable of its receiver. -/
theorem InFrame.wp_lookup {symbols : String → Option Word} {A : Area} {heap : Memory} {base stack arguments : List Word}
    {m : Machine} {header : Int} {slot : Nat} {object entry : Word} (h : InFrame A heap base stack m)
    (hcarry : m.Carries (object :: arguments))
    (hentry : m.mem.word (m.mem.word object + BitVec.ofInt 32 (header + 4 * slot)) = entry) :
    wp symbols ((callVirtual header slot).take 2) (fun m' => InFrame A heap base stack m' ∧
      m'.Carries (object :: arguments) ∧ m'.get .t0 = entry) m := by
  refine wp_step rfl (wp_step rfl (wp_nil.2 ⟨?_, ?_, ?_⟩))
  · exact (h.set _ (by decide) (by decide)).set _ (by decide) (by decide)
  · exact hcarry.congr fun i => by simp
  · simp [hcarry.get_a0, hentry]

namespace Image
variable {img : Image} {A : Area} {heap : Memory} {base stack arguments : List Word} {m : Machine}
  {a b entry : Word} {header : Int} {target : MethodRef} {name descriptor : String}

theorem reaches_callVirtual {slot : Nat} {object : Word} (h : InFrame A heap base stack m)
    (hcarry : m.Carries (object :: arguments))
    (hentry : m.mem.word (m.mem.word object + BitVec.ofInt 32 (header + 4 * slot)) = entry)
    (heven : jumpTarget entry = entry)
    (hc : img.Holds ((callVirtual header slot).map Line.instr) a b) :
    jumpTarget b = b ∧ ∃ m', img.Reaches (a, m) (entry, m') ∧ InFrame A heap base stack m' ∧
      m'.Carries (object :: arguments) ∧ m'.get .ra = b := by
  obtain ⟨c, hloads, b', hcall, rfl⟩ := holds_append.1
    (show img.Holds (((callVirtual header slot).take 2).map Line.instr ++ [.instr (.callRegister .t0)]) a b from hc)
  obtain ⟨m₁, hr₁, h₁, hcarry₁, ht₁⟩ := reaches_of_wp hloads (h.wp_lookup hcarry hentry)
  refine ⟨jumpTarget_of_even (img.even hcall).2, m₁.set .ra b', hr₁.trans (.single ?_),
    h₁.set _ (by decide) (by decide), hcarry₁.congr fun i => Machine.get_set_of_ne (by simp),
    Machine.get_set_self (by decide)⟩
  simp [Image.step, hcall, ht₁, heven]

theorem reaches_call (h : InFrame A heap base stack m) (hcarry : m.Carries arguments)
    (hentry : img.symbol (Symbol.ofMethod target.className name descriptor) = some entry)
    (hc : img.Holds [.instr (.call (Symbol.ofMethod target.className name descriptor))] a b) :
    jumpTarget b = b ∧ ∃ m', img.Reaches (a, m) (entry, m') ∧ InFrame A heap base stack m' ∧
      m'.Carries arguments ∧ m'.get .ra = b := by
  obtain ⟨b', hcall, rfl⟩ := hc
  refine ⟨jumpTarget_of_even (img.even hcall).2, m.set .ra b', .single ?_, h.set _ (by decide) (by decide),
    hcarry.congr fun i => Machine.get_set_of_ne (by simp), Machine.get_set_self (by decide)⟩
  simp [Image.step, hcall, hentry]

end Image

open Lowering in
/-- Which method a call goes to: the one of that name in the class that declares it, or the one whose code
the vtable of the receiver points to. -/
def MethodRef.Selects (target : MethodRef) (header : Int) (how : Invocation) (name : String)
    (arguments : List Word) (mem : Memory) (className : String) (d : MethodDecl) (entry : Word) : Prop :=
  match how, target.slot with
  | .virtual, some slot =>
    ∃ object, arguments.head? = some object ∧
      mem.word (mem.word object + BitVec.ofInt 32 (header + 4 * slot)) = entry
  | _, _ => className = target.className ∧ d.name = name

open Lowering in
theorem Image.reaches_transfer {img : Image} {A : Area} {heap : Memory} {base stack arguments : List Word}
    {m : Machine} {a b entry : Word} {header : Int} {how : Invocation} {target : MethodRef}
    {name className : String} {d : MethodDecl} (h : InFrame A heap base stack m) (hcarry : m.Carries arguments)
    (hselects : target.Selects header how name arguments m.mem className d entry)
    (hsymbol : img.symbol (Symbol.ofMethod className d.name d.descriptor) = some entry)
    (heven : jumpTarget entry = entry)
    (hc : img.Holds ((transfer header how target name d.descriptor).map Line.instr) a b) :
    jumpTarget b = b ∧ ∃ m', img.Reaches (a, m) (entry, m') ∧ InFrame A heap base stack m' ∧
      m'.Carries arguments ∧ m'.get .ra = b := by
  unfold MethodRef.Selects at hselects
  unfold transfer at hc
  split at hselects
  · next slot hslot =>
    obtain ⟨object, hhead, hentry⟩ := hselects
    obtain ⟨rest, rfl⟩ := List.head?_eq_some_iff.1 hhead
    simp only [hslot] at hc
    exact reaches_callVirtual h hcarry hentry heven hc
  · next hdirect =>
    obtain ⟨rfl, rfl⟩ := hselects
    split at hc
    · next slot hslot => exact absurd hslot (hdirect slot rfl)
    · exact reaches_call h hcarry hsymbol hc

/-- A return of a called method leads to the end of the call. -/
theorem Image.HasMethod.reaches_caller {σ : Type} {img : Image} {context : Context σ} {scope : Scope}
    {argumentWords : Nat} {body : Code} {state : σ} {entry : Word} {place : Nat → Word} {A : Area} {heap : Memory}
    {m : Machine} {k : Nat} {j : Instruction} {back b w : Word} {locals stack rest base result : List Word}
    (hmethod : img.HasMethod context scope argumentWords body state entry place)
    (hj : body.instructions[k]? = some j) (hresult : j.opcode.result? stack = some result)
    (h : InFrame A heap (locals ++ back :: w :: (rest ++ base)) stack m) (hlen : body.maxLocals = locals.length)
    (hfp : w = A.slot base.length) (hback : jumpTarget back = back)
    (hpush : img.Holds ((pushResult result.length).map Line.instr) back b)
    (room : rest.length + result.length + base.length ≤ A.capacity) :
    ∃ m', img.Reaches (place k, m) (b, m') ∧ InFrame A heap base (result ++ rest) m' := by
  obtain ⟨m₁, hr₁, h₁, hfp₁, hcarry₁⟩ := hmethod.reaches_of_result? hj hresult h hlen
  rw [hback] at hr₁
  have h₂ : InFrame A heap base rest m₁ := ⟨h₁, hfp₁.trans hfp⟩
  obtain ⟨m₃, hr₃, h₃⟩ := reaches_of_wp hpush (h₂.wp_pushResult hcarry₁ (length_le_of_result? hresult) room)
  exact ⟨m₃, hr₁.trans hr₃, h₃⟩

open Lowering in
/-- A call and the method that it goes to agree on where arguments and results are. The code of the call
leads to the first instruction of the method, with the arguments in its first locals in the order in which
they were pushed, the high word of each first. And from each return of the method the code of the call goes
on to its end, with the frame of the caller and the result on its operand stack in place of the arguments,
whatever else was left on the operand stack of the method. -/
theorem Lowering.invoke_agrees {σ τ : Type} (context : Context σ) (scope : Scope) (i : Instruction)
    (how : Invocation) (hop : i.opcode = how.opcode) {slot tag : Nat} {owner name : String} (d : MethodDecl)
    (hconstant : i.constant = some ⟨slot, .member tag owner name d.descriptor⟩)
    (hname : how = .special → name ≠ MethodDecl.constructorName) {state state' : σ} {code : List Instr}
    (hcall : (scope.lower i).run context state = ({ code }, state')) {target : MethodRef}
    (hanswer : context.answer (.method owner name d.descriptor) state = (.ok target, state'))
    {type : MethodType} (htype : MethodType.parse d.descriptor = .ok type)
    (context' : Context τ) (header' : Int) (className : String) (s : τ) {body : Code}
    (hbody : d.body? = some body) (hstatic : d.flags.isStatic = decide (how = .static))
    (haccepted : (d.listing context' header' className s).failure = none)
    (hlocals : d.argumentWords type ≤ body.maxLocals)
    (img : Image) {a b entry stop : Word} (hcaller : img.Holds (code.map Line.instr) a b)
    (hcallee : img.Holds (d.listing context' header' className s).lines entry stop)
    (values : List Operand)
    (hvalues : values.map (fun v => v.words.length) =
      (if how = .static then [] else [1]) ++ type.parameters.map FieldType.words)
    {A : Area} {heap : Memory} {base rest : List Word} {m : Machine}
    (hm : InFrame A heap base (Operand.pushAll values rest) m)
    (hselects : target.Selects scope.header how name (Operand.locals values) m.mem className d entry)
    (room : body.maxLocals + 2 + rest.length + base.length ≤ A.capacity) :
    ∃ back : Word,
      (∃ (pc : Word) (fresh : List Word) (m' : Machine),
        img.Holds ((d.bodyScope header' className body).linesBefore context' (d.argumentWords type) body s 0)
          entry pc ∧
        img.Reaches (a, m) (pc, m') ∧
        (Operand.locals values).length + fresh.length = body.maxLocals ∧
        InFrame A heap (Operand.locals values ++ fresh ++ back :: m.get .fp :: (rest ++ base)) [] m') ∧
      ∀ (k : Nat) (j : Instruction) (pc : Word) (heap' : Memory) (locals stack rest' base' result : List Word)
        (m' : Machine), body.instructions[k]? = some j → j.opcode.result? stack = some result →
        result.length = type.resultWords →
        img.Holds ((d.bodyScope header' className body).linesBefore context' (d.argumentWords type) body s k)
          entry pc →
        locals.length = body.maxLocals → rest'.length = rest.length → base'.length = base.length →
        InFrame A heap' (locals ++ back :: m.get .fp :: (rest' ++ base')) stack m' →
        ∃ m'', img.Reaches (pc, m') (b, m'') ∧ m''.get .fp = m.get .fp ∧
          InFrame A heap' base' (result ++ rest') m'' := by
  obtain ⟨place, hmethod⟩ := Image.hasMethod_of_holds hbody htype haccepted hcallee
  have hinvoke : scope.lower i = .invoke scope.header how i.constant := by
    cases how <;> rw [Scope.lower, hop] <;> rfl
  rw [hinvoke, hconstant] at hcall
  obtain ⟨hfew, rfl⟩ := run_invoke htype hanswer hname hcall
  have hargs : (Operand.locals values).length = how.argumentWords type := by
    rw [Operand.length_locals, hvalues, List.sum_append, Invocation.argumentWords, MethodType.parameterWords,
      ← List.sum_eq_foldr]
    split <;> simp [Nat.add_comm]
  have hwords : d.argumentWords type = how.argumentWords type := by
    rw [MethodDecl.argumentWords, Invocation.argumentWords, hstatic]
    simp
  rw [List.map_append, List.map_append] at hcaller
  obtain ⟨back, hcaller, hpush⟩ := Image.holds_append.1 hcaller
  obtain ⟨c, hpop, htransfer⟩ := Image.holds_append.1 hcaller
  -- the caller
  rw [Operand.pushAll_eq] at hm
  rw [← hargs] at hpop
  obtain ⟨m₁, hr₁, h₁, hcarry₁, -, hmem₁⟩ := Image.reaches_of_wp hpop (hm.wp_popArguments (hargs ▸ hfew))
  have heven : jumpTarget entry = entry := by
    obtain ⟨next, hcode, -⟩ := hmethod.enter
    exact jumpTarget_of_even (img.even hcode).1
  obtain ⟨hback, m₂, hr₂, h₂, hcarry₂, hra₂⟩ :=
    Image.reaches_transfer h₁ hcarry₁ (hmem₁ ▸ hselects) hmethod.symbol_eq heven htransfer
  have hfp₂ : m₂.get .fp = m.get .fp := h₂.fp.trans hm.fp.symm
  obtain ⟨count, hcount⟩ : ∃ count : Nat, body.maxLocals = count := ⟨_, (Int.toNat_of_nonneg (by omega)).symm⟩
  refine ⟨back, ?_, ?_⟩
  · -- the called method opens its frame
    obtain ⟨fresh, m₃, hlen, hr₃, h₃⟩ := hmethod.reaches_start hcount (by omega) h₂.stacked
      (by rw [List.length_append]; omega)
    rw [hra₂, hfp₂, hwords, ← hargs, show m₂.arguments _ = _ from hcarry₂] at h₃
    exact ⟨place 0, fresh, m₃, hmethod.before (Nat.zero_le _), hr₁.trans (hr₂.trans hr₃), by omega, h₃⟩
  · intro k j pc heap' locals stack rest' base' result m' hj hresult hwidth hpc hlen hrest hbase h'
    have hk : k ≤ body.instructions.length := Nat.le_of_lt (List.getElem?_eq_some_iff.1 hj).1
    obtain rfl := hpc.unique (hmethod.before hk)
    rw [← hwidth] at hpush
    obtain ⟨m₄, hr₄, h₄⟩ := hmethod.reaches_caller hj hresult h' (by omega) (by rw [hm.fp, hbase]) hback hpush
      (by have := length_le_of_result? hresult; omega)
    exact ⟨m₄, hr₄, by rw [h₄.fp, hm.fp, hbase], h₄⟩

/-! ### A call with arguments of one and of two words -/

/-- A static method that does nothing. -/
def ignore : MethodDecl where
  flags := ⟨8⟩
  name := "ignore"
  descriptor := "(IJ)V"
  code := some
    { maxStack := 0, maxLocals := 3, instructions := [{ offset := 1, opcode := .returnVoid }], handlers := [] }

/-- All methods are static methods of one class. -/
def onlyStatic : Context Unit where
  answer
    | .method .., _ => (.ok { className := "Main", slot := none, isStatic := true }, ())
    | _, _ => (.error (Cause.exceptionHandlers "" "" : Failure), ())

/-- A call of `ignore`. -/
def callIgnore : Instruction where
  offset := 1
  opcode := .invokestatic
  constant := some ⟨1, .member 10 "Main" "ignore" "(IJ)V"⟩

/-- The code of the call. -/
def ignoreCall : List Instr :=
  popArguments 3 ++ [.call "Main_ignore_IJ_V"]

/-- The call followed by the method. -/
def ignoreLines : List Line :=
  ignoreCall.map Line.instr ++ (ignore.listing noClasses 12 "Main" ()).lines

/-- A machine with three words on its operand stack. -/
def threeWords : Machine where
  regs := fun
    | .sp => 0xfff4
    | _ => 0x10000
  mem := Memory.write (fun _ => 0) 0xfff4 (lowBytes 4 2 ++ lowBytes 4 1 ++ lowBytes 4 7)

theorem ignore_call_returns : ∃ (back pc stop : Word) (m' m'' : Machine),
    (Image.load (fun _ => 0) ignoreLines 0).Holds (ignoreCall.map Line.instr) 0 stop ∧
    (Image.load (fun _ => 0) ignoreLines 0).Reaches (0, threeWords) (pc, m') ∧
    InFrame ⟨0x10000, 8, by decide⟩ threeWords.mem [7, 1, 2, back, 0x10000] [] m' ∧
    (Image.load (fun _ => 0) ignoreLines 0).Reaches (pc, m') (stop, m'') ∧
    InFrame ⟨0x10000, 8, by decide⟩ threeWords.mem [] [] m'' := by
  have htype : MethodType.parse "(IJ)V" = .ok ⟨[⟨0, .int, ""⟩, ⟨0, .long, ""⟩], none⟩ := by decide +kernel
  have haccepted : (ignore.listing noClasses 12 "Main" ()).failure = none := by decide +kernel
  have hload : (Image.load (fun _ => 0) ignoreLines 0).Holds ignoreLines (Image.address 0)
      (Image.address (0 + Image.room (fun _ => 0) ignoreLines)) := by
    refine Image.load_holds (fun line hline => ?_) ?_ (by decide +kernel)
    · rcases List.mem_append.1 hline with hline | hline
      · obtain ⟨j, -, rfl⟩ := List.mem_map.1 hline
        rfl
      · exact MethodDecl.isCode_listing rfl htype haccepted line hline
    · rw [ignoreLines, List.filterMap_append, Scope.labels_map_instr, List.nil_append]
      exact MethodDecl.nodup_labels rfl htype haccepted (by decide)
  have hcall : (Scope.lower ⟨"Main_main_V", [], 12⟩ callIgnore).run onlyStatic () =
      ({ code := ignoreCall }, ()) := by decide +kernel
  have hm : InFrame ⟨0x10000, 8, by decide⟩ threeWords.mem []
      (Operand.pushAll [.word 7, .wide 0x100000002] []) threeWords := by
    refine ⟨⟨by decide, by decide, fun {i w} hw => ?_, fun _ => rfl⟩, by decide⟩
    rcases i with _ | _ | _ | i
    · cases hw; decide
    · cases hw; decide
    · cases hw; decide
    · cases hw
  obtain ⟨b, hcaller, hcallee⟩ := Image.holds_append.1 hload
  obtain ⟨back, ⟨pc, fresh, m', hpc, hr, hlen, hm'⟩, hback⟩ := Lowering.invoke_agrees onlyStatic _ _ .static rfl
    ignore rfl (by decide) hcall rfl htype noClasses 12 "Main" () rfl rfl haccepted (by decide) _ hcaller hcallee
    [.word 7, .wide 0x100000002] (by decide) hm ⟨rfl, rfl⟩ (by decide)
  obtain rfl : fresh = [] := by
    rw [← List.length_eq_zero_iff]
    have hthree : (3 : Int) + fresh.length = 3 := hlen
    omega
  obtain ⟨m'', hr', -, hm''⟩ := hback 0 _ pc _ [7, 1, 2] [] [] [] [] m' rfl rfl rfl hpc rfl rfl rfl hm'
  exact ⟨back, pc, b, m', m'', hcaller, hr, hm', hr', hm''⟩

end JvmAot
