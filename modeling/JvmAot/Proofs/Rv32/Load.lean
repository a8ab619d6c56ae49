import JvmAot.Proofs.Rv32.Machine

/-! # Loading code into memory

An image made of the lines of an assembly text, from a given address on. How much room an instruction
takes is left open, as an assembler may choose between encodings; it is some halfwords and at least one.
`load_holds`: the image holds the text, if no label is defined twice and the addresses do not wrap
around. -/

namespace JvmAot

namespace Line

/-- The label that a line defines. -/
def label? : Line → Option String
  | label name => some name
  | _ => none

/-- Whether a line may stand between instructions. -/
def isCode : Line → Bool
  | blank | banner _ | comment _ | label _ | instr _ => true
  | raw _ | segment _ | equate .. | directive .. => false

/-- The room that a line takes in halfwords, given how much an instruction takes beyond the first. -/
def halfwords (extra : Instr → Nat) : Line → Nat
  | instr i => extra i + 1
  | _ => 0

end Line

namespace Image

/-- The address behind a number of halfwords. -/
def address (halfwords : Nat) : Word :=
  BitVec.ofNat 32 (2 * halfwords)

theorem address_inj {n k : Nat} (hn : n < 2 ^ 31) (hk : k < 2 ^ 31) : address n = address k ↔ n = k := by
  rw [address, address, ← BitVec.toNat_inj, BitVec.toNat_ofNat, BitVec.toNat_ofNat]
  omega

theorem getLsbD_address (n : Nat) : (address n).getLsbD 0 = false := by
  rw [address, BitVec.getLsbD_ofNat, Nat.testBit_zero]
  simp

/-- The instruction at an address, with the address of the next one. -/
def codeAt (extra : Instr → Nat) : List Line → (start : Nat) → Word → Option (Instr × Word)
  | [], _, _ => none
  | .instr i :: rest, start, a =>
    if a = address start then some (i, address (start + (extra i + 1)))
    else codeAt extra rest (start + (extra i + 1)) a
  | _ :: rest, start, a => codeAt extra rest start a

/-- The address of a label. -/
def labelAt (extra : Instr → Nat) : List Line → (start : Nat) → String → Option Word
  | [], _, _ => none
  | line :: rest, start, name =>
    if line.label? = some name then some (address start)
    else labelAt extra rest (start + line.halfwords extra) name

theorem even_codeAt {extra : Instr → Nat} {lines : List Line} {start : Nat} {a next : Word} {i : Instr}
    (h : codeAt extra lines start a = some (i, next)) :
    a.getLsbD 0 = false ∧ next.getLsbD 0 = false := by
  fun_induction codeAt extra lines start a with
  | case1 => cases h
  | case2 start i rest =>
    cases h
    exact ⟨getLsbD_address _, getLsbD_address _⟩
  | case3 start a i rest hne ih => exact ih h
  | case4 start a line rest hne ih => exact ih h

/-- The lines of an assembly text in memory, from the given number of halfwords on. -/
def load (extra : Instr → Nat) (lines : List Line) (start : Nat) : Image where
  code := codeAt extra lines start
  symbol := labelAt extra lines start
  even := even_codeAt

/-- The room that some lines take in halfwords. -/
def room (extra : Instr → Nat) (lines : List Line) : Nat :=
  (lines.map (Line.halfwords extra)).sum

variable {extra : Instr → Nat}

theorem room_cons (line : Line) (lines : List Line) :
    room extra (line :: lines) = line.halfwords extra + room extra lines :=
  List.sum_cons

theorem room_append (lines more : List Line) :
    room extra (lines ++ more) = room extra lines + room extra more := by
  rw [room, List.map_append, List.sum_append]; rfl

theorem codeAt_append {before rest : List Line} {i : Instr} {start : Nat}
    (h : start + room extra before < 2 ^ 31) :
    codeAt extra (before ++ .instr i :: rest) start (address (start + room extra before)) =
      some (i, address (start + room extra before + (extra i + 1))) := by
  induction before generalizing start with
  | nil => exact if_pos rfl
  | cons line before ih =>
    rw [room_cons] at h ⊢
    rw [← Nat.add_assoc] at h ⊢
    cases line with
    | instr j =>
      simp only [Line.halfwords] at h ⊢
      rw [List.cons_append, codeAt, if_neg, ih h]
      rw [address_inj h (by omega)]
      omega
    | _ => exact ih h

theorem labelAt_append {before rest : List Line} {name : String} {start : Nat}
    (h : name ∉ before.filterMap Line.label?) :
    labelAt extra (before ++ .label name :: rest) start name =
      some (address (start + room extra before)) := by
  induction before generalizing start with
  | nil => exact if_pos rfl
  | cons line before ih =>
    rw [List.filterMap_cons] at h
    have hne : line.label? ≠ some name := by
      intro heq
      simp [heq] at h
    have hrest : name ∉ before.filterMap Line.label? := by
      intro hmem
      split at h
      · exact h hmem
      · exact h (List.mem_cons_of_mem _ hmem)
    rw [List.cons_append, labelAt, if_neg hne, ih hrest, room_cons, Nat.add_assoc]

theorem load_holds_append (before : List Line) {lines : List Line} {start : Nat} (hcode : ∀ line ∈ lines, line.isCode)
    (hlabels : ((before ++ lines).filterMap Line.label?).Nodup)
    (hfits : start + room extra (before ++ lines) ≤ 2 ^ 31) :
    (load extra (before ++ lines) start).Holds lines (address (start + room extra before))
      (address (start + room extra (before ++ lines))) := by
  -- along the lines, those already seen move to `before`
  induction lines generalizing before with
  | nil => rw [List.append_nil]; rfl
  | cons line lines ih =>
    have hassoc : before ++ line :: lines = before ++ [line] ++ lines := by simp
    have hmore := ih (before ++ [line]) (fun l hl => hcode l (List.mem_cons_of_mem _ hl))
      (by rwa [← hassoc]) (by rwa [← hassoc])
    rw [← hassoc, room_append before [line], room_cons, ← Nat.add_assoc, ← Nat.add_assoc] at hmore
    have hline := hcode line (List.mem_cons_self ..)
    cases line with
    | instr i =>
      refine ⟨_, codeAt_append ?_, hmore⟩
      rw [room_append, room_cons, Line.halfwords] at hfits
      omega
    | label name =>
      refine ⟨labelAt_append ?_, hmore⟩
      rw [List.filterMap_append] at hlabels
      intro hmem
      exact (List.nodup_append.1 hlabels).2.2 name hmem name (by simp [Line.label?]) rfl
    | blank | comment | banner => exact hmore
    | raw | segment | equate | directive => cases hline

/-- A text without repeated labels can be loaded anywhere. -/
theorem load_holds {lines : List Line} {start : Nat} (hcode : ∀ line ∈ lines, line.isCode)
    (hlabels : (lines.filterMap Line.label?).Nodup) (hfits : start + room extra lines ≤ 2 ^ 31) :
    (load extra lines start).Holds lines (address start) (address (start + room extra lines)) :=
  load_holds_append [] hcode hlabels hfits

end Image

end JvmAot
