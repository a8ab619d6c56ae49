import JvmAot.Proofs.ClassFile.Offsets
import JvmAot.Proofs.Lowering.Failures
import JvmAot.Proofs.Lowering.Labels
import JvmAot.Proofs.Lowering.Symbols

/-! # Branches go to their targets

The branch targets of a method are collected first and numbered in ascending order; the labels are written later, on
the way through the instructions. `MethodDecl.branches_labelled`: as the offsets of instructions ascend too, the labels
appear in the order of their numbers, each one between the code of two instructions, and a branch names the
label in front of the instruction that it goes to. -/

namespace JvmAot

/-! ### Numbering -/

theorem nodup_eraseDups : (l : List Int) → l.eraseDups.Nodup
  | [] => List.nodup_nil
  | a :: l => by
    rw [List.eraseDups_cons]
    exact List.nodup_cons.2 ⟨by simp [List.mem_eraseDups], nodup_eraseDups _⟩
  termination_by l => l.length
  decreasing_by exact Nat.lt_succ_of_le (List.length_filter_le ..)

theorem ascending_branchTargets (instructions : List Instruction) :
    (branchTargets instructions).Pairwise (· < ·) := by
  have hsorted : (branchTargets instructions).Pairwise fun a b => decide (a ≤ b) = true :=
    List.pairwise_mergeSort (by simpa using fun _ _ _ => Int.le_trans) (by simpa using Int.le_total) _
  have hnodup : (branchTargets instructions).Nodup :=
    (List.mergeSort_perm ..).nodup_iff.2 (nodup_eraseDups _)
  refine hsorted.imp₂ (fun a b hle hne => ?_) hnodup
  exact Int.lt_iff_le_and_ne.2 ⟨by simpa using hle, hne⟩

/-- Two ascending lists with the same members are the same. -/
theorem eq_of_ascending {l l' : List Int} (h : l.Pairwise (· < ·)) (h' : l'.Pairwise (· < ·))
    (hmem : ∀ a, a ∈ l ↔ a ∈ l') : l = l' := by
  have hperm : l.Perm l' :=
    (List.perm_ext_iff_of_nodup (h.imp Int.ne_of_lt) (h'.imp Int.ne_of_lt)).2 hmem
  exact hperm.eq_of_pairwise (fun a b _ _ hab hba => absurd hab (Int.lt_asymm hba)) h h'

theorem idxOf?_eq_some_iff_getElem? {l : List Int} (h : l.Nodup) {a : Int} {n : Nat} :
    l.idxOf? a = some n ↔ l[n]? = some a := by
  rw [List.idxOf?_eq_some_iff, List.getElem?_eq_some_iff]
  refine ⟨fun ⟨hn, ha, _⟩ => ⟨hn, ha⟩, fun ⟨hn, ha⟩ => ⟨hn, ha, fun j hj heq => ?_⟩⟩
  exact Nat.ne_of_lt hj ((h.getElem_inj_iff).1 (heq.trans ha.symm))

namespace Scope
variable {scope : Scope}

theorem label?_eq_some_iff (h : scope.targets.Nodup) {target : Int} {label : String} :
    scope.label? target = some label ↔
      ∃ n, scope.targets[n]? = some target ∧ Symbol.branchLabel scope.symbol n = label := by
  simp only [label?, Option.map_eq_some_iff, idxOf?_eq_some_iff_getElem? h]

/-- All labels in the order of their targets. -/
theorem labels_targets (h : scope.targets.Nodup) :
    scope.targets.filterMap scope.label? = (List.range scope.targets.length).map (Symbol.branchLabel scope.symbol) := by
  have hall : ∀ target ∈ scope.targets, scope.label? target =
      some (Symbol.branchLabel scope.symbol (scope.targets.idxOf target)) := by
    intro target htarget
    refine (label?_eq_some_iff h).2 ⟨_, ?_, rfl⟩
    exact List.getElem?_idxOf htarget
  rw [List.filterMap_congr hall, List.filterMap_eq_map']
  refine List.ext_getElem (by simp) fun n hn _ => ?_
  have hn : n < scope.targets.length := by simpa using hn
  simp [h.idxOf_getElem n hn]

/-- On the way through ascending offsets that hold all targets, the labels appear in the order of their numbers. -/
theorem labels_offsets (htargets : scope.targets.Pairwise (· < ·)) {offsets : List Int}
    (hoffsets : offsets.Pairwise (· < ·)) (hsubset : ∀ target ∈ scope.targets, target ∈ offsets) :
    offsets.filterMap scope.label? = (List.range scope.targets.length).map (Symbol.branchLabel scope.symbol) := by
  have hfilter : offsets.filter (· ∈ scope.targets) = scope.targets := by
    refine eq_of_ascending (hoffsets.filter _) htargets fun target => ?_
    simpa using hsubset target
  have hlabels := labels_targets (htargets.imp Int.ne_of_lt)
  nth_rewrite 1 [← hfilter] at hlabels
  rw [← hlabels, List.filterMap_filter]
  refine List.filterMap_congr fun target _ => ?_
  split
  · rfl
  · rename_i hnot
    rw [label?, Option.map_eq_none_iff, List.idxOf?_eq_none_iff]
    simpa using hnot

end Scope

/-! ### The code of each instruction -/

variable {σ : Type} {context : Context σ} {state : σ} {scope : Scope} {symbol : String} {targets : List Int}

/-- Instructions with their code, each one lowered in the state that the ones before it leave. -/
inductive Scope.Lowers (scope : Scope) (context : Context σ) : σ → List (Instruction × List Instr) → Prop
  | nil {state : σ} : Lowers scope context state []
  | cons {state state' : σ} {i : Instruction} {code : List Instr} {parts : List (Instruction × List Instr)}
      (hrun : (scope.lower i).run context state = ({ code }, state')) (hrest : Lowers scope context state' parts) :
      Lowers scope context state ((i, code) :: parts)

/-- The text of instructions with their code. Number `n` of the targets has a label in front of the instruction that
stands there. -/
def labelledText (symbol : String) (targets : List Int) (parts : List (Instruction × List Instr)) : List Line :=
  parts.flatMap fun (i, code) =>
    ((targets.idxOf? i.offset).map fun n => Line.label (Symbol.branchLabel symbol n)).toList ++ code.map Line.instr

theorem labelledText_append (parts more : List (Instruction × List Instr)) :
    labelledText symbol targets (parts ++ more) =
      labelledText symbol targets parts ++ labelledText symbol targets more :=
  List.flatMap_append

theorem labelledText_cons_target (h : targets.Nodup) {n : Nat} {i : Instruction} (hn : targets[n]? = some i.offset)
    (code : List Instr) (parts : List (Instruction × List Instr)) :
    labelledText symbol targets ((i, code) :: parts) =
      .label (Symbol.branchLabel symbol n) :: code.map Line.instr ++ labelledText symbol targets parts := by
  simp [labelledText, (idxOf?_eq_some_iff_getElem? h).2 hn]

theorem Scope.lowers_of_listing {instructions : List Instruction}
    (hf : (scope.listing context instructions state).failure = none) :
    ∃ parts, parts.map Prod.fst = instructions ∧ scope.Lowers context state parts ∧
      (scope.listing context instructions state).lines = labelledText scope.symbol scope.targets parts := by
  induction instructions generalizing state with
  | nil => exact ⟨[], rfl, .nil, rfl⟩
  | cons i rest ih =>
    obtain ⟨code, state', hrun, hf', hlines⟩ := listing_cons hf
    obtain ⟨parts, rfl, hparts, htext⟩ := ih hf'
    refine ⟨(i, code) :: parts, rfl, .cons hrun hparts, ?_⟩
    rw [hlines, htext, labelLines, label?, Option.toList_map, List.map_map, ← Option.toList_map]
    rfl

/-- A branch that was accepted names the label of its target and nothing else. -/
theorem Scope.symbolsOf_branch {i : Instruction} {code : List Instr} {state' : σ} (hi : i.opcode.isBranch)
    (hrun : (scope.lower i).run context state = ({ code }, state')) :
    ∃ label, scope.label? i.target = some label ∧ symbolsOf code = [label] := by
  have hbranch {c : String → List Instr} (hlower : scope.lower i = scope.branchTo i.target c)
      (hc : ∀ label, symbolsOf (c label) = [label]) :
      ∃ label, scope.label? i.target = some label ∧ symbolsOf code = [label] := by
    rw [hlower, branchTo] at hrun
    split at hrun
    · rename_i label hlabel
      cases hrun
      exact ⟨label, hlabel, hc label⟩
    · cases hrun
  have hfail {cause : Cause} (hlower : scope.lower i = .fail cause) : False := by
    rw [hlower] at hrun
    cases hrun
  unfold lower at hbranch hfail
  cases hopcode : i.opcode with
  | ifZero c | ifInt c =>
    rw [hopcode] at hbranch
    exact hbranch rfl fun _ => symbolsOf_branchIf (by cases c <;> rfl)
  | ifSame | ifNotSame | ifnull | ifnonnull =>
    rw [hopcode] at hbranch
    exact hbranch rfl fun _ => symbolsOf_branchIf rfl
  | goto =>
    rw [hopcode] at hbranch
    exact hbranch rfl fun _ => rfl
  | jsr | tableswitch | lookupswitch =>
    rw [hopcode] at hfail
    exact (hfail rfl).elim
  | _ =>
    rw [hopcode] at hi
    cases hi

theorem Scope.Lowers.symbolsOf_branch {parts : List (Instruction × List Instr)} (h : scope.Lowers context state parts)
    {p : Instruction × List Instr} (hp : p ∈ parts) (hbranch : p.1.opcode.isBranch) :
    ∃ label, scope.label? p.1.target = some label ∧ symbolsOf p.2 = [label] := by
  induction h with
  | nil => cases hp
  | cons hrun _ ih =>
    rcases List.mem_cons.1 hp with rfl | hp
    · exact Scope.symbolsOf_branch hbranch hrun
    · exact ih hp

/-! ### Methods -/

/-- In an accepted method the branch targets, in ascending order, have the labels number 0, 1 and so on. Each one stands
directly in front of the code of the instruction at its target, behind that of the instructions before it. A branch
names the label of its own target. The text defines the symbol of the method, then these labels in order, then the label of
its end, no two of them the same, and nothing else. -/
theorem MethodDecl.branches_labelled {d : MethodDecl} {header : Int} {className : String} {code : Code}
    (hbody : d.body? = some code) (hf : (d.listing context header className state).failure = none)
    (hoffsets : code.Increasing)
    (htargets : ∀ i ∈ code.instructions, ∀ target ∈ i.targets, ∃ j ∈ code.instructions, j.offset = target)
    {symbol : String} (hsymbol : symbol = Symbol.ofMethod className d.name d.descriptor) {lines : List Line}
    (hlines : lines = (d.listing context header className state).lines) :
    ∃ (targets : List Int) (opening closing : List Instr) (parts : List (Instruction × List Instr)),
      targets.Pairwise (· < ·) ∧ (∀ t, t ∈ targets ↔ ∃ i ∈ code.instructions, t ∈ i.targets) ∧
      parts.map Prod.fst = code.instructions ∧ Scope.Lowers ⟨symbol, targets, header⟩ context state parts ∧
      lines = .label symbol :: opening.map Line.instr ++ labelledText symbol targets parts ++
        (.label (Symbol.returnLabel symbol) :: closing.map Line.instr ++ [.blank]) ∧
      (∀ n t, targets[n]? = some t → ∃ before i code after,
        parts = before ++ (i, code) :: after ∧ i.offset = t ∧
        lines = (.label symbol :: opening.map Line.instr ++ labelledText symbol targets before) ++
          .label (Symbol.branchLabel symbol n) :: code.map Line.instr ++
          (labelledText symbol targets after ++
            (.label (Symbol.returnLabel symbol) :: closing.map Line.instr ++ [.blank]))) ∧
      (∀ p ∈ parts, p.1.opcode.isBranch → ∃ n, targets[n]? = some p.1.target ∧
        symbolsOf p.2 = [Symbol.branchLabel symbol n]) ∧
      definitions lines =
        symbol :: ((List.range targets.length).map (Symbol.branchLabel symbol) ++ [Symbol.returnLabel symbol]) ∧
      (definitions lines).Nodup := by
  subst hsymbol hlines
  obtain ⟨type, htype⟩ := type_of_listing hbody hf
  obtain ⟨-, hfail, hlines⟩ := lines_listing hbody htype hf
  obtain ⟨parts, hparts, hlowers, htext⟩ := Scope.lowers_of_listing hfail
  have hascending := ascending_branchTargets code.instructions
  have hnodup : (branchTargets code.instructions).Nodup := hascending.imp Int.ne_of_lt
  have hordered : (code.instructions.map Instruction.offset).Pairwise (· < ·) := List.pairwise_map.2 hoffsets
  have hstands : ∀ t ∈ branchTargets code.instructions, ∃ j ∈ code.instructions, j.offset = t := by
    intro t ht
    obtain ⟨i, hi, ht⟩ := mem_branchTargets.1 ht
    exact htargets i hi t ht
  have hdefinitions := definitions_of_isCode (isCode_listing hbody htype hf)
  rw [Scope.linesBefore, List.take_length, htext] at hlines
  refine ⟨branchTargets code.instructions, _, _, parts, hascending, fun t => mem_branchTargets, hparts, hlowers, hlines,
    fun n t hn => ?_, fun p hp hbranch => ?_, ?_, ?_⟩
  · obtain ⟨j, hj, hoffset⟩ := hstands t (List.mem_of_getElem? hn)
    rw [← hparts] at hj
    obtain ⟨⟨i, c⟩, hmem, rfl⟩ := List.mem_map.1 hj
    obtain ⟨before, after, rfl⟩ := List.append_of_mem hmem
    refine ⟨before, i, c, after, rfl, hoffset, ?_⟩
    rw [hlines, labelledText_append, bodyScope, labelledText_cons_target hnodup (hoffset ▸ hn)]
    simp only [List.append_assoc, List.cons_append]
  · obtain ⟨label, hlabel, hsymbols⟩ := hlowers.symbolsOf_branch hp hbranch
    obtain ⟨n, hn, rfl⟩ := (Scope.label?_eq_some_iff hnodup).1 hlabel
    exact ⟨n, hn, hsymbols⟩
  · rw [hdefinitions, labels_listing hbody htype hf, Scope.labels_offsets hascending hordered fun t ht => ?_]
    · rfl
    · obtain ⟨j, hj, hoffset⟩ := hstands t ht
      exact List.mem_map.2 ⟨j, hj, hoffset⟩
  · rw [hdefinitions]
    exact nodup_labels hbody htype hf (hordered.imp Int.ne_of_lt)

/-- A method with branches forward to one target from two places, backward, and to itself. -/
def maze : MethodDecl where
  flags := ⟨8⟩
  name := "run"
  descriptor := "(I)I"
  code := some
    { maxStack := 1
      maxLocals := 1
      instructions :=
        [{ offset := 1, opcode := .load .int }, { offset := 2, opcode := .ifZero .le, target := 18 },
          { offset := 5, opcode := .iinc, increment := -1 }, { offset := 8, opcode := .load .int },
          { offset := 9, opcode := .ifZero .ne, target := 1 }, { offset := 12, opcode := .goto, target := 18 },
          { offset := 15, opcode := .goto, target := 15 }, { offset := 18, opcode := .load .int },
          { offset := 19, opcode := .returnValue .int }]
      handlers := [] }

theorem maze_labelled : ∃ parts : List (Instruction × List Instr),
    parts.map Prod.fst = (maze.code.get rfl).instructions ∧
      (∀ p ∈ parts, p.1.opcode.isBranch → ∃ n, [1, 15, 18][n]? = some p.1.target ∧
        symbolsOf p.2 = [Symbol.branchLabel "Main_run_I_I" n]) ∧
      definitions (maze.listing emptyContext 8 "Main" ()).lines =
        ["Main_run_I_I", "Main_run_I_I_0", "Main_run_I_I_1", "Main_run_I_I_2", "Main_run_I_I__return"] := by
  have htargets : branchTargets (maze.code.get rfl).instructions = [1, 15, 18] := by
    refine eq_of_ascending (ascending_branchTargets _) (by decide) fun t => ?_
    rw [mem_branchTargets]
    simp [maze, Instruction.targets, Opcode.isBranch]
    omega
  have haccepted : (maze.listing emptyContext 8 "Main" ()).failure = none := by
    have htype : MethodType.parse "(I)I" = .ok ⟨[⟨0, .int, ""⟩], some ⟨0, .int, ""⟩⟩ := by decide +kernel
    simp only [MethodDecl.listing, show maze.body? = some (maze.code.get rfl) from rfl,
      show MethodType.parse maze.descriptor = _ from htype, MethodDecl.bodyListing, htargets]
    decide +kernel
  obtain ⟨targets, -, -, parts, hascending, hmem, hparts, -, -, -, hbranches, hdefinitions, -⟩ :=
    MethodDecl.branches_labelled (d := maze) rfl haccepted (show List.Pairwise _ _ by decide) (by decide)
      (show "Main_run_I_I" = Symbol.ofMethod "Main" maze.name maze.descriptor by decide +kernel) rfl
  obtain rfl : targets = [1, 15, 18] := by
    rw [← htargets]
    exact eq_of_ascending hascending (ascending_branchTargets _) fun t => (hmem t).trans mem_branchTargets.symm
  exact ⟨parts, hparts, hbranches, hdefinitions⟩

end JvmAot
