import JvmAot.Proofs.ClassFile.PoolEnd

/-! # Why class files are refused

All that can be wrong with a class file is reported as bad input, with one exception: a file that ends within the entries
of its pool (`ClassFile.EndsInPool`) is refused, but with a failure of no kind. `ClassFile.decode_refusals` says that these
are the only ones. -/

namespace JvmAot

namespace Decoder
variable {α β : Type} {d : Decoder α} {f : α → Decoder β}

/-- The decoder fails, if it does, because of bad input. -/
def RefusesAll (d : Decoder α) : Prop :=
  ∀ c, Refuses (d c)

theorem refusesAll_pure (a : α) : RefusesAll (pure a) :=
  fun _ => refuses_ok _

theorem refusesAll_lift (r : Reading α) : RefusesAll (liftM r) :=
  fun _ => refuses_ok _

theorem refusesAll_fail {cause : Cause} (h : cause.kind = .resolution) : RefusesAll (fail cause : Decoder α) :=
  fun _ => refuses_error h

theorem refusesAll_ofExcept {r : Except Failure α} (h : Refuses r) : RefusesAll (ofExcept r) :=
  fun _ => h.map

theorem RefusesAll.bind_of_yields {P : α → Prop} (hd : d.RefusesAll) (hyields : Yields P d)
    (hf : ∀ a, P a → (f a).RefusesAll) : (d >>= f).RefusesAll := by
  intro c
  show Refuses (d c >>= fun r => f r.1 r.2)
  cases hfirst : d c with
  | error failure => exact refuses_error (hd c failure hfirst)
  | ok r => exact hf r.1 (hyields c r.1 r.2 hfirst) r.2

theorem RefusesAll.bind (hd : d.RefusesAll) (hf : ∀ a, (f a).RefusesAll) : (d >>= f).RefusesAll :=
  fun c => (hd c).bind fun r => hf r.1 r.2

theorem RefusesAll.map {g : α → β} (hd : d.RefusesAll) : (g <$> d).RefusesAll := by
  rw [map_eq_pure_bind]
  exact hd.bind fun a => refusesAll_pure (g a)

theorem RefusesAll.within (h : d.RefusesAll) (place : String) : (within place d).RefusesAll :=
  fun c => (h c).locate place

theorem refusesAll_checkEnd : RefusesAll checkEnd := by
  refine (refusesAll_lift _).bind fun marked => ?_
  split
  · exact refusesAll_fail rfl
  · exact refusesAll_pure ()

theorem refusesAll_repeated {count : Nat} {item : Nat → Decoder α} (h : ∀ i, (item i).RefusesAll) :
    RefusesAll (repeated count item) := by
  unfold repeated
  generalize List.range count = indices
  induction indices with
  | nil => exact refusesAll_pure []
  | cons i rest ih =>
    rw [List.mapM_cons]
    exact (h i).bind fun a => ih.bind fun as => refusesAll_pure (a :: as)

theorem RefusesAll.decode (h : d.RefusesAll) (bytes : List UInt8) : Refuses (d.decode bytes) :=
  (h _).map

end Decoder

open Decoder

/-! ### What follows the pool -/

namespace Bytecode
variable {pool : Pool}

theorem refusesAll_decodeInstruction (pool : Pool) : (decodeInstruction pool).RefusesAll := by
  refine (refusesAll_lift _).bind fun byte => .bind (fun _ => refuses_ok _) fun c => ?_
  refine (refusesAll_lift _).bind_of_yields (yields_readOperands pool _ _) fun d hd => ?_
  cases hd with
  | refused hkind => exact .bind (fun _ => refuses_error hkind) fun _ => refusesAll_pure _
  | decoded => exact (refusesAll_checkEnd.within _).bind fun _ => refusesAll_pure _

theorem refusesAll_decodeInstructions (fuel : Nat) (before : List Instruction) :
    (decodeInstructions pool fuel before).RefusesAll := by
  induction fuel generalizing before with
  | zero => exact refusesAll_pure _
  | succ fuel ih =>
    refine .bind (fun _ => refuses_ok _) fun c => ?_
    split
    · exact refusesAll_pure _
    · exact (refusesAll_decodeInstruction pool).bind fun i => ih _

theorem refuses_decode (pool : Pool) (bytes : List UInt8) : Refuses (decode pool bytes) :=
  (refusesAll_decodeInstructions _ _).decode bytes

end Bytecode

theorem refusesAll_skipAttributes : skipAttributes.RefusesAll := by
  refine (refusesAll_lift _).bind fun count => .bind ?_ fun _ => refusesAll_checkEnd
  generalize List.range count = indices
  induction indices with
  | nil => exact refusesAll_pure ()
  | cons _ indices ih => exact .bind (fun _ => refuses_ok _) fun _ => ih

theorem ExceptionHandler.refusesAll_decode (pool : Pool) : (decode pool).RefusesAll := by
  refine (refusesAll_lift _).bind fun _ => (refusesAll_lift _).bind fun _ => (refusesAll_lift _).bind fun _ =>
    (refusesAll_lift _).bind fun index => ?_
  dsimp only
  split
  · exact (refusesAll_pure _).bind fun _ => refusesAll_pure _
  · exact (refusesAll_ofExcept (pool.refuses_className index)).map.bind fun _ => refusesAll_pure _

theorem Code.refusesAll_decode (pool : Pool) : (decode pool).RefusesAll := by
  refine (refusesAll_lift _).bind fun _ => (refusesAll_lift _).bind fun _ => (refusesAll_lift _).bind fun _ =>
    (refusesAll_lift _).bind fun bytecode => refusesAll_checkEnd.bind fun _ => ?_
  refine (refusesAll_ofExcept (Bytecode.refuses_decode pool bytecode)).bind fun _ => (refusesAll_lift _).bind fun _ => ?_
  refine (refusesAll_repeated fun _ => ExceptionHandler.refusesAll_decode pool).bind fun _ => ?_
  exact refusesAll_skipAttributes.bind fun _ => refusesAll_pure _

namespace MethodDecl

theorem refusesAll_decodeAttributes (pool : Pool) (name descriptor : String) (count : Nat) (code : Option Code) :
    (decodeAttributes pool name descriptor count code).RefusesAll := by
  induction count generalizing code with
  | zero => exact refusesAll_pure code
  | succ count ih =>
    refine (refusesAll_lift _).bind fun index =>
      ((refusesAll_ofExcept (pool.refuses_text index)).within _).bind fun kind => ?_
    refine (refusesAll_lift _).bind fun _ => (refusesAll_lift _).bind fun body => refusesAll_checkEnd.bind fun _ => ?_
    split
    · refine ((refusesAll_ofExcept ?_).within _).bind fun code => ih (some code)
      exact (Code.refusesAll_decode pool).decode body
    · exact ih code

theorem refusesAll_decode (pool : Pool) : (decode pool).RefusesAll :=
  (refusesAll_lift _).bind fun _ => (refusesAll_lift _).bind fun index =>
    (refusesAll_ofExcept (pool.refuses_text index)).bind fun name => (refusesAll_lift _).bind fun index =>
    (refusesAll_ofExcept (pool.refuses_text index)).bind fun descriptor => (refusesAll_lift _).bind fun count =>
    (refusesAll_decodeAttributes pool name descriptor count none).bind fun _ => refusesAll_pure _

end MethodDecl

theorem FieldDecl.refusesAll_decode (pool : Pool) (className : String) (index : Nat) :
    (decode pool className index).RefusesAll :=
  (refusesAll_lift _).bind fun _ => (refusesAll_lift _).bind fun index =>
    ((refusesAll_ofExcept (pool.refuses_text index)).within _).bind fun _ => (refusesAll_lift _).bind fun index =>
    ((refusesAll_ofExcept (pool.refuses_text index)).within _).bind fun _ =>
    (refusesAll_skipAttributes.within _).bind fun _ => refusesAll_pure _

/-! ### The file -/

theorem Decoder.number_of_open {count n : Nat} {c c' : Cursor}
    (h : (liftM (Reading.number count) : Decoder Nat) c = .ok (n, c')) (hopen : c'.isExhausted = false) :
    c.isExhausted = false ∧ ∃ bytes, bytes.length = count ∧ n = Cursor.bigEndian bytes ∧ c.rest = bytes ++ c'.rest := by
  have hlift : (Cursor.bigEndian (Reading.take count c).1, (Reading.take count c).2) = (n, c') := lift_of_ok h
  cases hlift
  obtain ⟨hopen₀, hlength, hrest⟩ := Reading.take_of_open hopen
  exact ⟨hopen₀, _, hlength, rfl, hrest⟩

namespace ClassFile

/-- Reads what stands in front of the pool. -/
def header : Decoder (Nat × Nat) := do
  if (← Reading.u4) ≠ magic then Decoder.fail .invalidMagic
  let minor ← Reading.u2
  let major ← Reading.u2
  Decoder.checkEnd
  return (minor, major)

/-- Reads what follows the pool. -/
def declarations (version : Nat × Nat) (pool : Pool) : Decoder ClassFile := do
  let flags : AccessFlags := ⟨← Reading.u2⟩
  let thisIndex ← Reading.u2
  let superIndex ← Reading.u2
  Decoder.checkEnd
  let name ← Decoder.within "this class" (Decoder.ofExcept (pool.className thisIndex))
  let superName ← Decoder.ofExcept (decodeSuper pool name superIndex)
  let interfaces ← Decoder.repeated (← Reading.u2) fun i =>
    do Decoder.within ("interface " ++ toString i ++ " of " ++ name)
        (Decoder.ofExcept (pool.className (← Reading.u2)))
  let fields ← Decoder.repeated (← Reading.u2) (FieldDecl.decode pool name)
  let methods ← Decoder.repeated (← Reading.u2) fun i =>
    Decoder.within ("method " ++ toString i ++ " of " ++ name) (MethodDecl.decode pool)
  Decoder.within ("attributes of " ++ name) skipAttributes
  return { minor := version.1, major := version.2, flags, name, superName, interfaces, fields, methods }

theorem decoder_eq : decoder = header >>= fun version => Pool.decode >>= declarations version := by
  unfold decoder header
  rw [bind_assoc]
  refine bind_congr fun found => ?_
  extract_lets after before
  split
  · rfl
  · simp only [after, before, bind_assoc, pure_bind]
    rfl

theorem refusesAll_header : header.RefusesAll := by
  refine (refusesAll_lift _).bind fun found => ?_
  extract_lets version
  have hversion : (version ()).RefusesAll :=
    (refusesAll_lift _).bind fun _ => (refusesAll_lift _).bind fun _ => refusesAll_checkEnd.bind fun _ => refusesAll_pure _
  split
  · exact (refusesAll_fail rfl).bind fun _ => hversion
  · exact hversion

theorem refuses_decodeSuper (pool : Pool) (className : String) (index : Nat) :
    Refuses (decodeSuper pool className index) := by
  unfold decodeSuper
  split
  · exact refuses_ok none
  · exact ((pool.refuses_className index).locate _).map

theorem refusesAll_declarations (version : Nat × Nat) (pool : Pool) : (declarations version pool).RefusesAll := by
  refine (refusesAll_lift _).bind fun flags => (refusesAll_lift _).bind fun this => (refusesAll_lift _).bind fun super => ?_
  refine refusesAll_checkEnd.bind fun _ => ((refusesAll_ofExcept (pool.refuses_className this)).within _).bind fun name => ?_
  refine (refusesAll_ofExcept (refuses_decodeSuper pool name super)).bind fun superName => ?_
  refine (refusesAll_lift _).bind fun count => (refusesAll_repeated fun i => ?_).bind fun interfaces => ?_
  · exact (refusesAll_lift _).bind fun index => (refusesAll_ofExcept (pool.refuses_className index)).within _
  refine (refusesAll_lift _).bind fun count => ?_
  refine (refusesAll_repeated fun i => FieldDecl.refusesAll_decode pool name i).bind fun fields => ?_
  refine (refusesAll_lift _).bind fun count => ?_
  refine (refusesAll_repeated fun i => (MethodDecl.refusesAll_decode pool).within _).bind fun methods => ?_
  exact (refusesAll_skipAttributes.within _).bind fun _ => refusesAll_pure _

theorem header_of_ok {c c' : Cursor} {version : Nat × Nat} (h : header c = .ok (version, c')) :
    c'.isExhausted = false ∧ ∃ start numbers, start.length = 4 ∧ Cursor.bigEndian start = magic ∧ numbers.length = 4 ∧
      c.rest = start ++ numbers ++ c'.rest := by
  obtain ⟨found, c₁, hfound, h₁⟩ := bind_of_ok h
  dsimp only at h₁
  split at h₁
  · cases h₁
  · rename_i hmagic
    obtain ⟨minor, c₂, hminor, h₂⟩ := bind_of_ok h₁
    obtain ⟨major, c₃, hmajor, h₃⟩ := bind_of_ok h₂
    obtain ⟨_, c₄, hend, h₄⟩ := bind_of_ok h₃
    cases h₄
    obtain ⟨rfl, hopen⟩ := checkEnd_of_ok hend
    obtain ⟨hopen₂, majorBytes, hmajorLength, -, hrest₂⟩ := number_of_open hmajor hopen
    obtain ⟨hopen₁, minorBytes, hminorLength, -, hrest₁⟩ := number_of_open hminor hopen₂
    obtain ⟨-, start, hstart, rfl, hrest⟩ := number_of_open hfound hopen₁
    refine ⟨hopen, start, minorBytes ++ majorBytes, hstart, Decidable.not_not.1 hmagic, ?_, ?_⟩
    · rw [List.length_append, hminorLength, hmajorLength]
    · rw [hrest, hrest₁, hrest₂, List.append_assoc, List.append_assoc]

theorem reads_header {start minor major : List UInt8} (hstart : start.length = 4) (hmagic : Cursor.bigEndian start = magic)
    (hminor : minor.length = 2) (hmajor : major.length = 2) :
    header.Reads (start ++ (minor ++ major)) (Cursor.bigEndian minor, Cursor.bigEndian major) := by
  rw [show start ++ (minor ++ major) = start ++ (minor ++ (major ++ [])) by rw [List.append_nil]]
  refine (reads_number hstart).bind ?_
  rw [if_neg (not_not_intro hmagic)]
  exact (reads_number hminor).bind ((reads_number hmajor).bind (reads_checkEnd.bind (reads_pure _)))

/-- The file ends within the entries of its pool. -/
def EndsInPool (bytes : List UInt8) : Prop :=
  ∃ start version rest, bytes = start ++ version ++ rest ∧ start.length = 4 ∧ Cursor.bigEndian start = magic ∧
    version.length = 4 ∧ Pool.EndsInside rest

theorem decoder_of_endsInPool {bytes : List UInt8} (h : EndsInPool bytes) (position : Nat) :
    ∃ slot, decoder ⟨bytes, position, false⟩ = .error (PoolEntry.ending slot) := by
  obtain ⟨start, version, rest, rfl, hstart, hmagic, hversion, hends⟩ := h
  obtain ⟨minor, major, rfl, hminor⟩ := exists_split (show 2 ≤ version.length by omega)
  have hmajor : major.length = 2 := by
    rw [List.length_append] at hversion
    omega
  obtain ⟨slot, hslot⟩ := Pool.decode_of_endsInside hends (position + (start ++ (minor ++ major)).length)
  rw [decoder_eq, (reads_header hstart hmagic hminor hmajor).bind_eq]
  exact ⟨slot, bind_eq_of_error hslot⟩

theorem refuses_decoder {bytes : List UInt8} (h : ¬ EndsInPool bytes) (position : Nat) :
    Refuses (decoder ⟨bytes, position, false⟩) := by
  rw [decoder_eq]
  cases hheader : header ⟨bytes, position, false⟩ with
  | error failure =>
    rw [bind_eq_of_error hheader]
    exact refuses_error (refusesAll_header _ failure hheader)
  | ok r =>
    obtain ⟨version, rest, position', marked⟩ := r
    obtain ⟨hopen, start, numbers, hstart, hmagic, hnumbers, hrest⟩ := header_of_ok hheader
    cases hopen
    rw [bind_eq_of_ok hheader]
    exact Refuses.bind (Pool.refuses_decode (fun hends => h ⟨start, numbers, rest, hrest, hstart, hmagic, hnumbers, hends⟩) _)
      fun r => refusesAll_declarations version r.1 r.2

/-- A file is refused as bad input unless it ends within the entries of its pool. A file that does is refused too, but
with a failure of no kind that names the end and the slot it belongs to. -/
theorem decode_refusals (bytes : ByteArray) :
    (EndsInPool bytes.toList → ∃ slot, decode bytes = .error (PoolEntry.ending slot) ∧ (PoolEntry.ending slot).kind = .other) ∧
      (¬ EndsInPool bytes.toList → ∀ failure, decode bytes = .error failure → failure.kind = .resolution) := by
  refine ⟨fun h => ?_, fun h => (refuses_decoder h 0).map⟩
  obtain ⟨slot, hslot⟩ := decoder_of_endsInPool h 0
  exact ⟨slot, congrArg (Except.map Prod.fst) hslot, rfl⟩

/-- A file that ends after the number of its slots. -/
def poolless : ByteArray :=
  ⟨⟨[202, 254, 186, 190, 0, 0, 0, 52, 0, 2]⟩⟩

/-- A file with an entry of the unknown tag 2 after a text and a number of two slots. -/
def mistagged : ByteArray :=
  ⟨⟨[202, 254, 186, 190, 0, 0, 0, 52, 0, 5, 1, 0, 1, 65, 5, 0, 0, 0, 0, 0, 0, 0, 7, 2, 0]⟩⟩

/-- The kind and the message of a refusal. -/
def refusal? (bytes : ByteArray) : Option (Kind × String) :=
  match decode bytes with
  | .ok _ => none
  | .error failure => some (failure.kind, failure.message)

theorem exists_of_refusal? {bytes : ByteArray} {kind : Kind} {message : String} (h : refusal? bytes = some (kind, message)) :
    ∃ failure, decode bytes = .error failure ∧ failure.kind = kind ∧ failure.message = message := by
  unfold refusal? at h
  split at h
  · cases h
  · rename_i failure hfailure
    have hpair := Option.some.inj h
    exact ⟨failure, hfailure, congrArg Prod.fst hpair, congrArg Prod.snd hpair⟩

/-- Not every refusal is of bad input. -/
theorem poolless_refused_without_kind : ∃ failure, decode poolless = .error failure ∧ failure.kind = .other ∧
    failure.message = "constant pool entry 1: unexpected EOF" :=
  exists_of_refusal? (by decide +kernel)

theorem poolless_mistagged_refused :
    (EndsInPool poolless.toList ∧ ∃ slot, decode poolless = .error (PoolEntry.ending slot)) ∧
      ¬ EndsInPool mistagged.toList ∧ ∃ failure, decode mistagged = .error failure ∧ failure.kind = .resolution := by
  have hpoolless : EndsInPool poolless.toList :=
    ⟨[202, 254, 186, 190], [0, 0, 0, 52], [0, 2], by decide +kernel, rfl, rfl, rfl, [0, 2], [], rfl, rfl, .cut (by decide) trivial⟩
  have hrefusal : refusal? mistagged =
      some (.resolution, "resolution error: invalid constant pool tag: tag 2 at constant pool entry 4") := by
    decide +kernel
  obtain ⟨failure, hfailure, hkind, -⟩ := exists_of_refusal? hrefusal
  have hmistagged : ¬ EndsInPool mistagged.toList := by
    intro h
    obtain ⟨slot, hslot⟩ := decoder_of_endsInPool h 0
    have heq : decode mistagged = .error (PoolEntry.ending slot) := congrArg (Except.map Prod.fst) hslot
    rw [hfailure] at heq
    cases heq
    cases hkind
  obtain ⟨slot, hslot, -⟩ := (decode_refusals poolless).1 hpoolless
  exact ⟨⟨hpoolless, slot, hslot⟩, hmistagged, failure, hfailure, (decode_refusals mistagged).2 hmistagged failure hfailure⟩

end ClassFile

end JvmAot
