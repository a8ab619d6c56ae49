import JvmAot.Lowering.Method
import JvmAot.Proofs.Lowering.Instructions

/-! # Where the code of a method stands

`Image.HasMethod` takes the assembly text of a method in an image apart: `place k` is where the code of
instruction `k` starts, the label of that instruction means that place, and behind the last instruction
comes the shared end. `hasMethod_of_holds` finds the places in any image that holds the text. -/

namespace JvmAot

variable {σ : Type} {img : Image} {context : Context σ} {scope : Scope} {state : σ} {a b : Word}

/-- The label and the code of instruction `k`, for all `k`. -/
structure Image.HasCode (img : Image) (context : Context σ) (scope : Scope)
    (instructions : List Instruction) (place : Nat → Word) : Prop where
  label : ∀ {k i label}, instructions[k]? = some i → scope.label? i.offset = some label →
    img.symbol label = some (place k)
  lowered : ∀ {k i}, instructions[k]? = some i → ∃ code state state',
    (scope.lower i).run context state = ({ code }, state') ∧
      img.Holds (code.map Line.instr) (place k) (place (k + 1))

theorem Scope.listing_cons {i : Instruction} {rest : List Instruction}
    (h : (scope.listing context (i :: rest) state).failure = none) :
    ∃ code state', (scope.lower i).run context state = ({ code }, state') ∧
      (scope.listing context rest state').failure = none ∧
      ∀ rest, (scope.listing context (i :: rest) state).lines = scope.labelLines i.offset ++
        code.map Line.instr ++ (scope.listing context rest state').lines := by
  rcases hrun : (scope.lower i).run context state with ⟨⟨code, failure⟩, state'⟩
  cases failure with
  | some failure => simp [listing, hrun] at h
  | none =>
    refine ⟨code, state', rfl, ?_, fun rest => ?_⟩
    · simpa only [listing, hrun, Listing.prepend] using h
    · simp only [listing, hrun, Listing.prepend]

theorem Image.holds_labelLines {offset : Int} (h : img.Holds (scope.labelLines offset) a b) :
    a = b ∧ ∀ label, scope.label? offset = some label → img.symbol label = some a := by
  unfold Scope.labelLines at h
  cases hl : scope.label? offset with
  | none =>
    rw [hl] at h
    exact ⟨h, by simp⟩
  | some label =>
    rw [hl] at h
    obtain ⟨hs, rfl⟩ := h
    exact ⟨rfl, by simpa using hs⟩

theorem Image.hasCode_of_holds {instructions : List Instruction}
    (hf : (scope.listing context instructions state).failure = none)
    (h : img.Holds (scope.listing context instructions state).lines a b) :
    ∃ place, img.HasCode context scope instructions place ∧ place 0 = a ∧ place instructions.length = b ∧
      ∀ k, k ≤ instructions.length →
        img.Holds (scope.listing context (instructions.take k) state).lines a (place k) := by
  induction instructions generalizing state a with
  | nil =>
    obtain rfl : a = b := h
    exact ⟨fun _ => a, ⟨by simp, by simp⟩, rfl, rfl, fun k _ => by simp [Scope.listing, Holds]⟩
  | cons i rest ih =>
    obtain ⟨code, state', hrun, hf', hlines⟩ := Scope.listing_cons hf
    rw [hlines] at h
    obtain ⟨d, hfirst, hrest⟩ := holds_append.1 h
    obtain ⟨c, hlabel, hcode⟩ := holds_append.1 hfirst
    obtain ⟨rfl, hlabel'⟩ := holds_labelLines hlabel
    obtain ⟨place, hplace, rfl, hend, hbefore⟩ := ih hf' hrest
    refine ⟨fun k => if k = 0 then a else place (k - 1), ⟨?_, ?_⟩, rfl, by simpa using hend, ?_⟩
    · intro k j label hk hl
      cases k with
      | zero => cases hk; exact hlabel' label hl
      | succ k => exact hplace.label hk hl
    · intro k j hk
      cases k with
      | zero => cases hk; exact ⟨code, state, state', hrun, hcode⟩
      | succ k => exact hplace.lowered hk
    · intro k hk
      cases k with
      | zero => simp [Scope.listing, Holds]
      | succ k =>
        rw [List.take_succ_cons, hlines]
        exact holds_append.2 ⟨_, hfirst, hbefore k (by simpa using hk)⟩

/-! ### Methods -/

/-- What the instructions of a method share. -/
def MethodDecl.bodyScope (d : MethodDecl) (header : Int) (className : String) (code : Code) : Scope where
  symbol := Symbol.ofMethod className d.name d.descriptor
  targets := branchTargets code.instructions
  header

/-- The lines of a method in front of its instruction `k`. -/
def Scope.linesBefore (scope : Scope) (context : Context σ) (argumentWords : Nat) (code : Code) (state : σ)
    (k : Nat) : List Line :=
  .label scope.symbol :: (Template.enter code.maxLocals argumentWords).map Line.instr ++
    (scope.listing context (code.instructions.take k) state).lines

/-- A compiled method. -/
structure Image.HasMethod (img : Image) (context : Context σ) (scope : Scope) (argumentWords : Nat)
    (code : Code) (state : σ) (entry : Word) (place : Nat → Word) : Prop extends
    img.HasCode context scope code.instructions place where
  few : argumentWords ≤ Register.arguments.length
  before : ∀ {k}, k ≤ code.instructions.length →
    img.Holds (scope.linesBefore context argumentWords code state k) entry (place k)
  finish : img.symbol (Symbol.returnLabel scope.symbol) = some (place code.instructions.length) ∧
    ∃ b, img.Holds ((Template.leave code.maxLocals).map Line.instr) (place code.instructions.length) b

theorem MethodDecl.lines_bodyListing {header : Int} {symbol : String} {n : Nat} {code : Code}
    (hf : (bodyListing context header symbol n code state).failure = none) :
    n ≤ Register.arguments.length ∧
    ((⟨symbol, branchTargets code.instructions, header⟩ : Scope).listing context code.instructions
      state).failure = none ∧
    (bodyListing context header symbol n code state).lines =
      (⟨symbol, branchTargets code.instructions, header⟩ : Scope).linesBefore context n code state
        code.instructions.length ++
      (.label (Symbol.returnLabel symbol) :: (Template.leave code.maxLocals).map Line.instr ++ [.blank]) := by
  unfold bodyListing at hf ⊢
  split at hf
  · simp at hf
  next hfew =>
  have hbody : ((⟨symbol, branchTargets code.instructions, header⟩ : Scope).listing context code.instructions
      state).failure = none := by
    simp only [Listing.append, Listing.prepend] at hf
    split at hf <;> assumption
  rw [if_neg hfew]
  refine ⟨by omega, hbody, ?_⟩
  simp only [Listing.append, Listing.prepend, hbody, Scope.linesBefore, List.take_length]

theorem MethodDecl.type_of_listing {d : MethodDecl} {header : Int} {className : String} {code : Code}
    (hbody : d.body? = some code) (hf : (d.listing context header className state).failure = none) :
    ∃ type, MethodType.parse d.descriptor = .ok type := by
  cases htype : MethodType.parse d.descriptor with
  | error failure =>
    simp only [listing, hbody, htype] at hf
    cases hf
  | ok type => exact ⟨type, rfl⟩

theorem MethodDecl.lines_listing {d : MethodDecl} {header : Int} {className : String} {code : Code}
    {type : MethodType} (hbody : d.body? = some code) (htype : MethodType.parse d.descriptor = .ok type)
    (hf : (d.listing context header className state).failure = none) :
    d.argumentWords type ≤ Register.arguments.length ∧
    ((d.bodyScope header className code).listing context code.instructions state).failure = none ∧
    (d.listing context header className state).lines =
      (d.bodyScope header className code).linesBefore context (d.argumentWords type) code state
        code.instructions.length ++
      (.label (Symbol.returnLabel (d.bodyScope header className code).symbol) ::
        (Template.leave code.maxLocals).map Line.instr ++ [.blank]) := by
  have hlisting : d.listing context header className state =
      if code.handlers ≠ [] then
        { lines := [], failure := some (Cause.exceptionHandlers d.name d.descriptor : Failure), state }
      else
        (bodyListing context header (Symbol.ofMethod className d.name d.descriptor)
          (d.argumentWords type) code state).within ("method " ++ d.name ++ d.descriptor) := by
    simp only [MethodDecl.listing, hbody, htype]
  rw [hlisting] at hf ⊢
  split at hf
  · simp at hf
  rw [if_neg ‹_›]
  exact lines_bodyListing (Option.map_eq_none_iff.1 hf)

/-- Where the code of a method stands in an image that holds its text. -/
theorem Image.hasMethod_of_holds {d : MethodDecl} {header : Int} {className : String} {code : Code}
    {type : MethodType} {entry stop : Word} (hbody : d.body? = some code)
    (htype : MethodType.parse d.descriptor = .ok type)
    (hf : (d.listing context header className state).failure = none)
    (h : img.Holds (d.listing context header className state).lines entry stop) :
    ∃ place, img.HasMethod context (d.bodyScope header className code) (d.argumentWords type) code state
      entry place := by
  obtain ⟨hfew, hfail, hlines⟩ := MethodDecl.lines_listing hbody htype hf
  rw [hlines] at h
  obtain ⟨b, hbefore, hfinish, hleave⟩ := holds_append.1 h
  obtain ⟨c, hleave, -⟩ := holds_append.1 hleave
  obtain ⟨a, hopening, hcode⟩ := holds_append.1 hbefore
  rw [List.take_length] at hcode
  obtain ⟨place, hplace, rfl, rfl, hplaces⟩ := hasCode_of_holds hfail hcode
  exact ⟨place, hplace, hfew, fun hk => holds_append.2 ⟨_, hopening, hplaces _ hk⟩, hfinish, c, hleave⟩

namespace Image.HasMethod
variable {argumentWords : Nat} {code : Code} {entry : Word} {place : Nat → Word}
  (hm : img.HasMethod context scope argumentWords code state entry place)
include hm

theorem symbol_eq : img.symbol scope.symbol = some entry :=
  (hm.before (Nat.zero_le _)).1

theorem enter : img.Holds ((Template.enter code.maxLocals argumentWords).map Line.instr) entry (place 0) := by
  have h : img.Holds (_ ++ []) entry (place 0) := (hm.before (Nat.zero_le _)).2
  rwa [List.append_nil] at h

/-- The code of an instruction that asks nothing. -/
theorem holds_code {k : Nat} {i : Instruction} {c : List Instr} (hi : code.instructions[k]? = some i)
    (hl : scope.lower i = .code c) : img.Holds (c.map Line.instr) (place k) (place (k + 1)) := by
  obtain ⟨c', s, s', hrun, hholds⟩ := hm.lowered hi
  rw [hl] at hrun
  cases hrun
  exact hholds

/-- A branch that was accepted has a label. -/
theorem holds_branch {k : Nat} {i : Instruction} {c : String → List Instr}
    (hi : code.instructions[k]? = some i) (hl : scope.lower i = scope.branchTo i.target c) :
    ∃ label, scope.label? i.target = some label ∧
      img.Holds ((c label).map Line.instr) (place k) (place (k + 1)) := by
  cases hlabel : scope.label? i.target with
  | none =>
    obtain ⟨c', s, s', hrun, -⟩ := hm.lowered hi
    rw [hl, Scope.branchTo, hlabel] at hrun
    simp [Lowering.fail, Lowering.run] at hrun
  | some label =>
    rw [Scope.branchTo, hlabel] at hl
    exact ⟨label, rfl, hm.holds_code hi hl⟩

end Image.HasMethod

end JvmAot
