import JvmAot.Lowering.Instruction
import JvmAot.Proofs.Lowering.Activation

/-! # The code of an instruction does what the instruction does

For the instructions that concern only their frame: `implements_of_operate?` for those that go on with the next
one, `lower_of_branch?` for branches and `lower_of_result?` for returns. None of these instructions needs
to know about other classes, and none but a branch without a label is refused. -/

namespace JvmAot.Scope

open Template

variable {scope : Scope} {i : Instruction} {locals locals' stack stack' : List Word}

/-- The code of an instruction makes these locals and this operand stack of those. -/
def Implements (scope : Scope) (i : Instruction) (locals stack locals' stack' : List Word) : Prop :=
  ∃ code, scope.lower i = .code code ∧ ∀ {A heap outer m symbols},
    InFrame A heap (locals ++ outer) stack m → stack'.length + (locals ++ outer).length ≤ A.capacity →
    wp symbols code (InFrame A heap (locals' ++ outer) stack') m

theorem implements_of_pushed? {words : List Word} (h : i.pushed? = some words) :
    scope.Implements i locals stack locals (words ++ stack) := by
  unfold Instruction.pushed? at h
  split at h
  · next hop =>
    cases h
    refine ⟨_, by rw [lower, hop], fun hf room => ?_⟩
    exact wp_mono (hf.wp_push (by decide) room) fun m' h' => h'.1
  · next index hop =>
    cases h
    exact ⟨_, by rw [lower, hop], fun hf room => hf.wp_pushInt _ room⟩
  · next value hop =>
    cases h
    exact ⟨_, by rw [lower, hop], fun hf room => hf.wp_pushLong _ room⟩
  · next hop =>
    cases h
    exact ⟨_, by rw [lower, hop], fun hf room => hf.wp_pushInt _ room⟩
  · next hop =>
    cases h
    exact ⟨_, by rw [lower, hop], fun hf room => hf.wp_pushInt _ room⟩
  · next hop =>
    split at h
    · next value hc =>
      cases h
      exact ⟨_, by simp only [lower, hop, hc, Lowering.constant], fun hf room => hf.wp_pushInt _ room⟩
    · next value hc =>
      cases h
      exact ⟨_, by simp only [lower, hop, hc, Lowering.constant], fun hf room => hf.wp_pushLong _ room⟩
    · cases h
  · cases h

theorem implements_duplicate (depth count : Nat) (hl : scope.lower i = .code (duplicate depth count))
    (hd : depth ≤ 4) (hc : count ≤ depth) (hlen : depth ≤ stack.length) :
    scope.Implements i locals stack locals (stack.take depth ++ stack.take count ++ stack.drop depth) := by
  refine ⟨_, hl, fun hf room => hf.wp_duplicate hd hc hlen ?_⟩
  simp only [List.length_append, List.length_take, List.length_drop] at room ⊢
  omega

theorem implements_of_rearrange? (h : i.opcode.rearrange? stack = some stack') :
    scope.Implements i locals stack locals stack' := by
  unfold Opcode.rearrange? at h
  split at h
  · next hop =>
    cases h
    exact ⟨_, by rw [lower, hop], fun hf _ => wp_nil.2 hf⟩
  · next hop =>
    cases h
    refine ⟨_, by rw [lower, hop], fun hf _ => ?_⟩
    exact hf.wp_adjust (n := 1) (by simp)
  · next hop =>
    cases h
    refine ⟨_, by rw [lower, hop], fun hf _ => ?_⟩
    exact hf.wp_adjust (n := 2) (by simp)
  · next hop =>
    cases h
    exact ⟨_, by rw [lower, hop], fun hf room => hf.wp_duplicateTop room⟩
  · next hop =>
    cases h
    exact implements_duplicate 2 1 (by rw [lower, hop]) (by decide) (by decide) (by simp)
  · next hop =>
    cases h
    exact implements_duplicate 3 1 (by rw [lower, hop]) (by decide) (by decide) (by simp)
  · next hop =>
    cases h
    exact implements_duplicate 2 2 (by rw [lower, hop]) (by decide) (by decide) (by simp)
  · next hop =>
    cases h
    exact implements_duplicate 3 2 (by rw [lower, hop]) (by decide) (by decide) (by simp)
  · next hop =>
    cases h
    exact implements_duplicate 4 2 (by rw [lower, hop]) (by decide) (by decide) (by simp)
  · next hop =>
    cases h
    exact ⟨_, by rw [lower, hop], fun hf _ => hf.wp_swap⟩
  · next op y x s hop =>
    obtain ⟨z, hz, rfl⟩ := Option.map_eq_some_iff.1 h
    exact ⟨_, by rw [lower, hop], fun hf _ => hf.wp_combine (combine?_arithmeticOp hz)⟩
  · next op y x s hop =>
    cases h
    exact ⟨_, by rw [lower, hop], fun hf _ => hf.wp_combine (combine?_bitwiseOp op x y)⟩
  · next hop =>
    cases h
    exact ⟨_, by rw [lower, hop], fun hf _ => hf.wp_negate⟩
  · next target x s hop =>
    cases h
    cases target with
    | byte =>
      refine ⟨_, by rw [lower, hop], fun hf _ => ?_⟩
      refine hf.wp_narrow (n := 24) (by decide) ?_
      exact congrArg some (sshiftRight_shiftLeft x rfl (by decide))
    | char =>
      refine ⟨_, by rw [lower, hop], fun hf _ => ?_⟩
      refine hf.wp_narrow (n := 16) (by decide) ?_
      exact congrArg some (ushiftRight_shiftLeft x rfl)
    | short =>
      refine ⟨_, by rw [lower, hop], fun hf _ => ?_⟩
      refine hf.wp_narrow (n := 16) (by decide) ?_
      exact congrArg some (sshiftRight_shiftLeft x rfl (by decide))
  · cases h

theorem implements_of_operate? (scope : Scope) (h : i.operate? locals stack = some (locals', stack')) :
    scope.Implements i locals stack locals' stack' := by
  unfold Instruction.operate? at h
  split at h
  · next kind hop =>
    refine ⟨_, by rw [lower, hop], fun hf room => ?_⟩
    split at h
    · next hwide =>
      obtain ⟨high, hhigh, low, hlow, h⟩ : ∃ high, local? locals i.operand = some high ∧
          ∃ low, local? locals (i.operand + 1) = some low ∧ (locals, low :: high :: stack) = (locals', stack') := by
        simpa [Option.bind_eq_some_iff] using h
      cases h
      rw [loadLocal, if_pos hwide]
      refine wp_append.2 (wp_mono (hf.wp_loadWord hhigh (by simp at room ⊢; omega)) fun m₁ h₁ => ?_)
      exact h₁.wp_loadWord hlow room
    · next hwide =>
      obtain ⟨w, hw, h⟩ := Option.map_eq_some_iff.1 h
      cases h
      rw [loadLocal, if_neg hwide]
      exact hf.wp_loadWord hw room
  · next kind hop =>
    refine ⟨_, by rw [lower, hop], fun hf room => ?_⟩
    split at h
    · next low high rest hwide =>
      obtain ⟨locals₁, hlow, h⟩ := Option.bind_eq_some_iff.1 h
      obtain ⟨locals₂, hhigh, h⟩ := Option.bind_eq_some_iff.1 h
      cases h
      rw [storeLocal, if_pos hwide]
      refine wp_append.2 (wp_mono (hf.wp_storeWord hlow) fun m₁ h₁ => ?_)
      exact h₁.wp_storeWord hhigh
    · next w rest hwide =>
      obtain ⟨locals₁, hw, h⟩ := Option.map_eq_some_iff.1 h
      cases h
      rw [storeLocal, if_neg (by simp [hwide])]
      exact hf.wp_storeWord hw
    · cases h
  · next hop =>
    obtain ⟨w, hw, h⟩ := Option.bind_eq_some_iff.1 h
    obtain ⟨locals₁, hs, h⟩ := Option.bind_eq_some_iff.1 h
    cases h
    exact ⟨_, by rw [lower, hop], fun hf _ => hf.wp_increment hw hs⟩
  iterate 6
    · obtain ⟨words, hwords, h⟩ := Option.map_eq_some_iff.1 h
      cases h
      exact implements_of_pushed? hwords
  · obtain ⟨stack₁, hstack, h⟩ := Option.map_eq_some_iff.1 h
    cases h
    exact implements_of_rearrange? hstack

/-! ### Branches and returns -/

section branch
variable {img : Image} {A : Area} {heap : Memory} {base : List Word} {m : Machine} {a b next : Word}
  {label : String} {op : Mnemonic} {taken : Bool} {x y : Word}

/-- Where a branch with code between `a` and `b` goes. -/
def BranchesTo (img : Image) (taken : Bool) (label : String) (b next : Word) : Prop :=
  if taken then img.symbol label = some next else b = next

theorem step_branch {r q : Register} (hc : img.Holds [.instr (.branch op r q label)] a b)
    (hn : BranchesTo img taken label b next) (ht : op.taken? (m.get r) (m.get q) = some taken) :
    img.step (a, m) = some (next, m) := by
  obtain ⟨b', hcode, rfl⟩ := hc
  unfold BranchesTo at hn
  split at hn
  · next htaken => simp [Image.step, hcode, ht, htaken, hn]
  · next htaken => simp [Image.step, hcode, ht, htaken, hn]

theorem reaches_branchIf_zero (h : InFrame A heap base (x :: stack) m)
    (hc : img.Holds ((branchIf op true label).map Line.instr) a b)
    (hn : BranchesTo img taken label b next) (ht : op.taken? x 0 = some taken) :
    ∃ m', img.Reaches (a, m) (next, m') ∧ InFrame A heap base stack m' := by
  rw [branchIf, if_pos rfl, List.map_append] at hc
  obtain ⟨c, hpop, hbranch⟩ := Image.holds_append.1 hc
  obtain ⟨m', hr, hf, hx, -⟩ := Image.reaches_of_wp hpop (h.wp_pop (by decide) (by decide) (by decide))
  refine ⟨m', hr.trans (.single (step_branch hbranch hn ?_)), hf⟩
  rw [hx, Machine.get_zero, ht]

theorem reaches_branchIf_words (h : InFrame A heap base (y :: x :: stack) m)
    (hc : img.Holds ((branchIf op false label).map Line.instr) a b)
    (hn : BranchesTo img taken label b next) (ht : op.taken? x y = some taken) :
    ∃ m', img.Reaches (a, m) (next, m') ∧ InFrame A heap base stack m' := by
  rw [branchIf, if_neg (by decide), List.map_append, List.map_append] at hc
  obtain ⟨c, hpops, hbranch⟩ := Image.holds_append.1 hc
  obtain ⟨d, hpop₁, hpop₀⟩ := Image.holds_append.1 hpops
  obtain ⟨m₁, hr₁, hf₁, hy, -⟩ := Image.reaches_of_wp hpop₁ (h.wp_pop (by decide) (by decide) (by decide))
  obtain ⟨m₂, hr₂, hf₂, hx, hkeep⟩ :=
    Image.reaches_of_wp hpop₀ (hf₁.wp_pop (by decide) (by decide) (by decide))
  refine ⟨m₂, hr₁.trans (hr₂.trans (.single (step_branch hbranch hn ?_))), hf₂⟩
  rw [hx, hkeep _ (by decide) (by decide), hy, ht]

/-- The code of a branch goes to the label of its target or falls through. -/
theorem lower_of_branch? (scope : Scope) (h : i.opcode.branch? stack = some (taken, stack')) :
    ∃ code, scope.lower i = scope.branchTo i.target code ∧ ∀ {img : Image} {A heap base m label a b next},
      InFrame A heap base stack m → img.Holds ((code label).map Line.instr) a b →
      BranchesTo img taken label b next →
      ∃ m', img.Reaches (a, m) (next, m') ∧ InFrame A heap base stack' m' := by
  unfold Opcode.branch? at h
  split at h
  · next c x s hop =>
    cases h
    exact ⟨_, by rw [lower, hop], fun hf hc hn => reaches_branchIf_zero hf hc hn (taken?_branchOp c x 0)⟩
  · next x s hop =>
    cases h
    exact ⟨_, by rw [lower, hop], fun hf hc hn => reaches_branchIf_zero hf hc hn rfl⟩
  · next x s hop =>
    cases h
    exact ⟨_, by rw [lower, hop], fun hf hc hn => reaches_branchIf_zero hf hc hn rfl⟩
  · next c y x s hop =>
    cases h
    exact ⟨_, by rw [lower, hop], fun hf hc hn => reaches_branchIf_words hf hc hn (taken?_branchOp c x y)⟩
  · next y x s hop =>
    cases h
    exact ⟨_, by rw [lower, hop], fun hf hc hn => reaches_branchIf_words hf hc hn rfl⟩
  · next y x s hop =>
    cases h
    exact ⟨_, by rw [lower, hop], fun hf hc hn => reaches_branchIf_words hf hc hn rfl⟩
  · next hop =>
    cases h
    refine ⟨_, by rw [lower, hop], fun hf hc hn => ⟨_, .single ?_, hf⟩⟩
    obtain ⟨b', hcode, -⟩ := hc
    simp [Image.step, hcode, show _ = _ from hn]
  · cases h

end branch

/-- The code of a return puts the result in registers and jumps to the end of the method. -/
theorem lower_of_result? (scope : Scope) {result : List Word} (h : i.opcode.result? stack = some result) :
    ∃ code, scope.lower i = .code (code ++ scope.leave) ∧ ∀ {A heap base m symbols},
      InFrame A heap base stack m →
      wp symbols code (fun m' => (∃ stack', InFrame A heap base stack' m') ∧ m'.Carries result) m := by
  unfold Opcode.result? at h
  split at h
  · next hop =>
    cases h
    exact ⟨[], by rw [lower, hop]; rfl, fun hf => wp_nil.2 ⟨⟨_, hf⟩, rfl⟩⟩
  · next kind s hop => exact ⟨_, by rw [lower, hop], fun hf => hf.wp_popResult h⟩
  · cases h

end JvmAot.Scope
