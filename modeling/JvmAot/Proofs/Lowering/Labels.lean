import JvmAot.Proofs.Asm.Symbols
import JvmAot.Proofs.Lowering.Placement
import JvmAot.Proofs.Rv32.Load
import Mathlib.Data.List.Nodup

/-! # The labels of a method

A method defines its own symbol, a label for each instruction that is a branch target, and the label of
its shared end. `nodup_labels`: no label is defined twice if no two instructions stand at the same
offset. -/

namespace JvmAot

namespace Symbol

theorem branchLabel_inj {method : String} {i j : Nat} (h : branchLabel method i = branchLabel method j) :
    i = j := by
  rw [branchLabel, branchLabel, String.append_right_inj, Nat.toString_eq_ofList_toDigits,
    Nat.toString_eq_ofList_toDigits, String.ofList_inj] at h
  rw [← Nat.ofDigitChars_ten_toDigits (n := i), h, Nat.ofDigitChars_ten_toDigits]

theorem branchLabel_ne_self (method : String) (i : Nat) : branchLabel method i ≠ method := by
  rw [branchLabel, String.append_assoc, Ne, String.append_eq_left_iff, String.append_eq_empty_iff]
  exact fun h => absurd h.1 (by decide)

theorem returnLabel_ne_self (method : String) : returnLabel method ≠ method := by
  rw [returnLabel, Ne, String.append_eq_left_iff]
  decide

/-- The number of a branch target holds no underscore. -/
theorem branchLabel_ne_returnLabel (method : String) (i : Nat) : branchLabel method i ≠ returnLabel method := by
  rw [branchLabel, returnLabel, show "__return" = "_" ++ "_return" from rfl, ← String.append_assoc, Ne,
    String.append_right_inj]
  intro h
  have hmem : '_' ∈ (toString i).toList := by rw [h]; decide
  rw [Nat.toString_eq_ofList_toDigits, String.toList_ofList] at hmem
  exact Nat.underscore_not_in_toDigits hmem

end Symbol

/-- Code defines its labels. -/
theorem definitions_of_isCode {lines : List Line} (h : ∀ line ∈ lines, line.isCode) :
    definitions lines = lines.filterMap Line.label? := by
  refine List.filterMap_congr fun line hline => ?_
  cases line with
  | label => rfl
  | equate => cases h _ hline
  | _ => rfl

variable {σ : Type} {context : Context σ} {scope : Scope} {state : σ}

namespace Scope

theorem label?_inj {t t' : Int} {label : String} (h : scope.label? t = some label)
    (h' : scope.label? t' = some label) : t = t' := by
  obtain ⟨k, hk, rfl⟩ := Option.map_eq_some_iff.1 h
  obtain ⟨k', hk', heq⟩ := Option.map_eq_some_iff.1 h'
  obtain rfl := Symbol.branchLabel_inj heq
  obtain ⟨-, rfl, -⟩ := List.idxOf?_eq_some_iff.1 hk
  obtain ⟨-, rfl, -⟩ := List.idxOf?_eq_some_iff.1 hk'
  rfl

theorem label?_ne {t : Int} {label : String} (h : scope.label? t = some label) :
    label ≠ scope.symbol ∧ label ≠ Symbol.returnLabel scope.symbol := by
  obtain ⟨k, -, rfl⟩ := Option.map_eq_some_iff.1 h
  exact ⟨Symbol.branchLabel_ne_self _ _, Symbol.branchLabel_ne_returnLabel _ _⟩

theorem labels_map_instr (code : List Instr) : (code.map Line.instr).filterMap Line.label? = [] := by
  simp [Line.label?]

theorem isCode_listing {instructions : List Instruction}
    (hf : (scope.listing context instructions state).failure = none) :
    ∀ line ∈ (scope.listing context instructions state).lines, line.isCode := by
  induction instructions generalizing state with
  | nil => simp [listing]
  | cons i rest ih =>
    obtain ⟨code, state', -, hf', hlines⟩ := listing_cons hf
    rw [hlines]
    intro line hline
    rcases List.mem_append.1 hline with hline | hline
    · rcases List.mem_append.1 hline with hline | hline
      · obtain ⟨name, -, rfl⟩ := List.mem_map.1 hline
        rfl
      · obtain ⟨j, -, rfl⟩ := List.mem_map.1 hline
        rfl
    · exact ih hf' line hline

theorem labels_listing {instructions : List Instruction}
    (hf : (scope.listing context instructions state).failure = none) :
    (scope.listing context instructions state).lines.filterMap Line.label? =
      (instructions.map Instruction.offset).filterMap scope.label? := by
  induction instructions generalizing state with
  | nil => rfl
  | cons i rest ih =>
    obtain ⟨code, state', -, hf', hlines⟩ := listing_cons hf
    rw [hlines, List.filterMap_append, List.filterMap_append, labels_map_instr, ih hf', List.append_nil,
      List.map_cons, List.filterMap_cons, labelLines]
    cases scope.label? i.offset <;> simp [Line.label?]

/-- The symbol of a method, the labels in it and that of its end are all different. -/
theorem nodup_labels (scope : Scope) {offsets : List Int} (h : offsets.Nodup) :
    (scope.symbol :: (offsets.filterMap scope.label? ++ [Symbol.returnLabel scope.symbol])).Nodup := by
  have hbranch : (offsets.filterMap scope.label?).Nodup := h.filterMap fun t t' label h h' => label?_inj h h'
  refine List.nodup_cons.2 ⟨fun hmem => ?_, List.nodup_append.2 ⟨hbranch, by simp, fun label hlabel r hr => ?_⟩⟩
  · rcases List.mem_append.1 hmem with hmem | hmem
    · obtain ⟨t, -, ht⟩ := List.mem_filterMap.1 hmem
      exact (label?_ne ht).1 rfl
    · exact Symbol.returnLabel_ne_self _ (List.mem_singleton.1 hmem).symm
  · obtain ⟨t, -, ht⟩ := List.mem_filterMap.1 hlabel
    rw [List.mem_singleton.1 hr]
    exact (label?_ne ht).2

end Scope

/-- The text of a method is code. -/
theorem MethodDecl.isCode_listing {d : MethodDecl} {header : Int} {className : String} {code : Code}
    {type : MethodType} (hbody : d.body? = some code) (htype : MethodType.parse d.descriptor = .ok type)
    (hf : (d.listing context header className state).failure = none) :
    ∀ line ∈ (d.listing context header className state).lines, line.isCode := by
  obtain ⟨-, hfail, hlines⟩ := lines_listing hbody htype hf
  rw [hlines, Scope.linesBefore, List.take_length]
  intro line hline
  have hinstr {code : List Instr} (h : line ∈ code.map Line.instr) : line.isCode := by
    obtain ⟨i, -, rfl⟩ := List.mem_map.1 h
    rfl
  simp only [List.cons_append, List.mem_cons, List.mem_append, List.not_mem_nil, or_false] at hline
  rcases hline with rfl | (hline | hline) | rfl | hline | rfl
  · rfl
  · exact hinstr hline
  · exact Scope.isCode_listing hfail line hline
  · rfl
  · exact hinstr hline
  · rfl

/-- A method defines its symbol, the labels of its branch targets and that of its end. -/
theorem MethodDecl.labels_listing {d : MethodDecl} {header : Int} {className : String} {code : Code}
    {type : MethodType} (hbody : d.body? = some code) (htype : MethodType.parse d.descriptor = .ok type)
    (hf : (d.listing context header className state).failure = none) :
    (d.listing context header className state).lines.filterMap Line.label? =
      (d.bodyScope header className code).symbol :: ((code.instructions.map Instruction.offset).filterMap
        (d.bodyScope header className code).label? ++
        [Symbol.returnLabel (d.bodyScope header className code).symbol]) := by
  obtain ⟨-, hfail, hlines⟩ := lines_listing hbody htype hf
  rw [hlines, Scope.linesBefore, List.take_length, List.filterMap_append, List.filterMap_append,
    List.filterMap_cons, Scope.labels_listing hfail, Scope.labels_map_instr]
  simp [Line.label?]

/-- A method defines no label twice. -/
theorem MethodDecl.nodup_labels {d : MethodDecl} {header : Int} {className : String} {code : Code}
    {type : MethodType} (hbody : d.body? = some code) (htype : MethodType.parse d.descriptor = .ok type)
    (hf : (d.listing context header className state).failure = none)
    (hoffsets : (code.instructions.map Instruction.offset).Nodup) :
    ((d.listing context header className state).lines.filterMap Line.label?).Nodup := by
  rw [labels_listing hbody htype hf]
  exact Scope.nodup_labels _ hoffsets

end JvmAot
