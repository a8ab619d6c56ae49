import JvmAot.Proofs.ClassFile.Extent
import JvmAot.Proofs.ClassFile.PoolTable
import JvmAot.Proofs.ClassFile.Refusals

/-! # A class is read back from any file that declares it

`ClassFile.decode_image`: decoding undoes writing, whatever the order of the pool is and whatever attributes there are. The
proof goes through the parts of a file: each is read as what it declares, and the bytes that follow do not matter
(`Reads`). -/

namespace JvmAot

open Decoder

/-! ### Lists -/

theorem Decoder.reads_repeated {α β : Type} {item : Nat → Decoder β} {write : α → List UInt8} {as : List α} {bs : List β}
    (h : List.Forall₂ (fun a b => ∀ i, (item i).Reads (write a) b) as bs) :
    (repeated as.length item).Reads (as.flatMap write) bs := by
  unfold repeated
  generalize hindices : List.range as.length = indices
  have hlength : indices.length = as.length := by rw [← hindices, List.length_range]
  clear hindices
  induction h generalizing indices with
  | nil =>
    cases List.eq_nil_of_length_eq_zero hlength
    exact reads_pure []
  | cons hab _ ih =>
    cases indices with
    | nil => cases hlength
    | cons i indices =>
      rw [List.mapM_cons]
      exact (hab i).bind ((ih indices (Nat.succ.inj hlength)).bind_last (reads_pure _))

theorem reads_skipAttributes (attributes : Counted AttributeImage) :
    skipAttributes.Reads (attributes.bytes AttributeImage.bytes) () := by
  have hskip (indices : List Nat) (as : List AttributeImage) (h : indices.length = as.length) :
      Reads (indices.forM fun _ => do
        let _ ← Reading.u2
        let _ ← Reading.take (← Reading.u4)) (as.flatMap AttributeImage.bytes) () := by
    induction indices generalizing as with
    | nil =>
      cases List.eq_nil_of_length_eq_zero h.symm
      exact reads_pure ()
    | cons i indices ih =>
      cases as with
      | nil => cases h
      | cons a as =>
        refine Reads.bind (a := ()) ?_ (ih as (Nat.succ.inj h))
        exact (reads_word a.name).bind ((reads_numberBytes a.fits).bind ((reads_take rfl).bind_last (reads_pure ())))
  exact (reads_numberBytes attributes.fits).bind ((hskip _ _ List.length_range).bind_last reads_checkEnd)

/-! ### Bodies -/

theorem PoolImage.ClassName.ne_zero {pool : PoolImage} {index : Nat} {name : String} (h : pool.ClassName index name) :
    index ≠ 0 := by
  rintro rfl
  obtain ⟨_, hitem, -⟩ := h
  cases hitem

variable {pool : PoolImage}

theorem HandlerImage.Writes.reads {h : HandlerImage} {handler : ExceptionHandler} (hwrites : h.Writes pool handler) :
    (ExceptionHandler.decode pool.table).Reads h.bytes handler := by
  obtain ⟨start, stop, target, catchType⟩ := handler
  obtain ⟨rfl, rfl, rfl, hcatch⟩ := hwrites
  refine (reads_word _).bind ((reads_word _).bind ((reads_word _).bind ((reads_word _).bind_last ?_)))
  dsimp only at hcatch ⊢
  cases catchType with
  | none =>
    rw [if_pos (show h.catchIndex.toNat = 0 from hcatch)]
    exact (reads_pure none).bind_first (reads_pure _)
  | some name =>
    rw [if_neg (PoolImage.ClassName.ne_zero hcatch)]
    exact (reads_ofExcept (PoolImage.className_of_className hcatch)).map.bind_first (reads_pure _)

theorem BodyImage.Writes.reads {b : BodyImage} {code : Code} (h : b.Writes pool code) :
    (Code.decode pool.table).Reads b.bytes code := by
  obtain ⟨maxStack, maxLocals, instructions, handlers⟩ := code
  obtain ⟨rfl, rfl, hinstructions, hhandlers⟩ := h
  refine (reads_word _).bind ((reads_word _).bind ((reads_numberBytes b.fits).bind ((reads_take rfl).bind ?_)))
  refine reads_checkEnd.bind_first ((reads_ofExcept hinstructions).bind_first ?_)
  rw [Counted.bytes, List.append_assoc]
  refine (reads_numberBytes b.handlers.fits).bind ((reads_repeated (hhandlers.imp fun _ _ h _ => h.reads)).bind ?_)
  exact (reads_skipAttributes b.attributes).bind_last (reads_pure _)

/-! ### Members -/

namespace MemberImage

theorem IsExtra.text {a : AttributeImage} (h : IsExtra pool a) :
    ∃ kind, pool.table.text a.name.toNat = .ok kind ∧ kind ≠ "Code" := by
  obtain ⟨units, fits, hitem, hunits⟩ := h
  refine ⟨Utf16.decode units, ?_, fun hcode => hunits (Utf16.eq_encode_of_decode hcode (by decide +kernel))⟩
  rw [Pool.text, Pool.utf8, PoolImage.entry?_of_item? hitem]
  rfl

variable {name descriptor : String} {count : Nat} {code result : Option Code} {bytes : List UInt8} {a : AttributeImage}

theorem reads_attribute {kind : String} (hkind : pool.table.text a.name.toNat = .ok kind)
    (h : (if kind = "Code" then
        within ("code of " ++ name ++ descriptor) (Decoder.ofExcept ((Code.decode pool.table).decode a.content)) >>=
          fun code => MethodDecl.decodeAttributes pool.table name descriptor count (some code)
      else MethodDecl.decodeAttributes pool.table name descriptor count code).Reads bytes result) :
    (MethodDecl.decodeAttributes pool.table name descriptor (count + 1) code).Reads (a.bytes ++ bytes) result := by
  rw [AttributeImage.bytes, List.append_assoc, List.append_assoc]
  refine (reads_word a.name).bind (((reads_ofExcept hkind).within _).bind_first ?_)
  exact (reads_numberBytes a.fits).bind ((reads_take rfl).bind (reads_checkEnd.bind_first h))

theorem reads_extras {extras : List AttributeImage} (hextras : ∀ a ∈ extras, IsExtra pool a)
    (h : (MethodDecl.decodeAttributes pool.table name descriptor count code).Reads bytes result) :
    (MethodDecl.decodeAttributes pool.table name descriptor (extras.length + count) code).Reads
      (extras.flatMap AttributeImage.bytes ++ bytes) result := by
  -- An attribute of another name leaves the body as it was found.
  induction extras with
  | nil => simpa using h
  | cons a extras ih =>
    obtain ⟨ha, hrest⟩ := List.forall_mem_cons.1 hextras
    obtain ⟨kind, hkind, hextra⟩ := ha.text
    rw [List.length_cons, Nat.add_right_comm, List.flatMap_cons, List.append_assoc]
    refine reads_attribute hkind ?_
    rw [if_neg hextra]
    exact ih hrest

theorem reads_bodiless {extras : List AttributeImage} (hextras : ∀ a ∈ extras, IsExtra pool a) (name descriptor : String)
    (code : Option Code) : (MethodDecl.decodeAttributes pool.table name descriptor extras.length code).Reads
      (extras.flatMap AttributeImage.bytes) code := by
  have hend : (MethodDecl.decodeAttributes pool.table name descriptor 0 code).Reads [] code := reads_pure code
  simpa using reads_extras hextras hend

theorem WritesCode.reads {attributes : List AttributeImage} (h : WritesCode pool attributes code) (name descriptor : String) :
    (MethodDecl.decodeAttributes pool.table name descriptor attributes.length none).Reads
      (attributes.flatMap AttributeImage.bytes) code := by
  cases h with
  | bodiless hextras => exact reads_bodiless hextras name descriptor none
  | @body before after a body code hbefore hname hcontent hbody hafter =>
    have hdecode : (Code.decode pool.table).decode a.content = .ok code := by
      rw [hcontent]
      exact hbody.reads.decode List.prefix_rfl
    rw [List.length_append, List.length_cons, List.flatMap_append, List.flatMap_cons]
    refine reads_extras hbefore (reads_attribute (PoolImage.text_of_text hname) ?_)
    rw [if_pos rfl]
    -- The body is decoded from its own bytes, so what follows in the file cannot matter to it.
    exact ((reads_ofExcept hdecode).within _).bind_first (reads_bodiless hafter name descriptor _)

theorem WritesMethod.reads {m : MemberImage} {method : MethodDecl} (h : m.WritesMethod pool method) :
    (MethodDecl.decode pool.table).Reads m.bytes method := by
  obtain ⟨⟨flags⟩, name, descriptor, code⟩ := method
  obtain ⟨rfl, hname, hdescriptor, hcode⟩ := h
  refine (reads_word _).bind ((reads_word _).bind ((reads_ofExcept (PoolImage.text_of_text hname)).bind_first ?_))
  refine (reads_word _).bind ((reads_ofExcept (PoolImage.text_of_text hdescriptor)).bind_first ?_)
  exact (reads_numberBytes m.attributes.fits).bind ((hcode.reads name descriptor).bind_last (reads_pure _))

theorem WritesField.reads {m : MemberImage} {field : FieldDecl} (h : m.WritesField pool field) (className : String)
    (index : Nat) : (FieldDecl.decode pool.table className index).Reads m.bytes field := by
  obtain ⟨⟨flags⟩, name, descriptor⟩ := field
  obtain ⟨rfl, hname, hdescriptor⟩ := h
  refine (reads_word _).bind ((reads_word _).bind (((reads_ofExcept (PoolImage.text_of_text hname)).within _).bind_first ?_))
  refine (reads_word _).bind (((reads_ofExcept (PoolImage.text_of_text hdescriptor)).within _).bind_first ?_)
  exact ((reads_skipAttributes m.attributes).within _).bind_last (reads_pure _)

end MemberImage

/-! ### Files -/

namespace ClassImage
variable {image : ClassImage} {file : ClassFile}

theorem Extends.decodeSuper {index : Nat} {superName : Option String} (h : Extends pool index superName) (className : String) :
    ClassFile.decodeSuper pool.table className index = .ok superName := by
  have hnamed {name : String} (hname : pool.ClassName index name) :
      ClassFile.decodeSuper pool.table className index = .ok (if name = "" then none else some name) := by
    rw [ClassFile.decodeSuper, if_neg hname.ne_zero, PoolImage.className_of_className hname]
    rfl
  cases superName with
  | none =>
    rcases h with rfl | hname
    · rfl
    · rw [hnamed hname, if_pos rfl]
  | some name =>
    obtain ⟨hne, hname⟩ := h
    rw [hnamed hname, if_neg hne]

theorem Writes.reads_declarations (h : image.Writes file) :
    (ClassFile.declarations (image.minor.toNat, image.major.toNat) image.pool.table).Reads image.declarationBytes file := by
  obtain ⟨minor, major, ⟨flags⟩, name, superName, interfaces, fields, methods⟩ := file
  obtain ⟨rfl, rfl, rfl, hname, hsuper, hinterfaces, hfields, hmethods⟩ := h
  simp only [declarationBytes, Counted.bytes, List.append_assoc]
  refine (reads_word _).bind ((reads_word _).bind ((reads_word _).bind (reads_checkEnd.bind_first ?_)))
  refine ((reads_ofExcept (PoolImage.className_of_className hname)).within _).bind_first ?_
  refine (reads_ofExcept (hsuper.decodeSuper name)).bind_first ?_
  refine (reads_numberBytes image.interfaces.fits).bind ((reads_repeated (hinterfaces.imp fun index interface h i => ?_)).bind ?_)
  · exact (reads_word index).bind_last ((reads_ofExcept (PoolImage.className_of_className h)).within _)
  refine (reads_numberBytes image.fields.fits).bind ((reads_repeated (hfields.imp fun _ _ h i => h.reads name i)).bind ?_)
  refine (reads_numberBytes image.methods.fits).bind ((reads_repeated (hmethods.imp fun _ _ h i => h.reads.within _)).bind ?_)
  exact ((reads_skipAttributes image.attributes).within _).bind_last (reads_pure _)

theorem Writes.reads (h : image.Writes file) : ClassFile.decoder.Reads image.bytes file := by
  have hheader : ClassFile.header.Reads image.headerBytes (image.minor.toNat, image.major.toNat) := by
    have hmagic : Cursor.bigEndian (numberBytes 4 ClassFile.magic) = ClassFile.magic := bigEndian_numberBytes (by decide)
    have hreads := ClassFile.reads_header (length_numberBytes 4 _) hmagic (length_numberBytes 2 image.minor.toNat)
      (length_numberBytes 2 image.major.toNat)
    rwa [bigEndian_numberBytes (word_fits _), bigEndian_numberBytes (word_fits _)] at hreads
  rw [ClassFile.decoder_eq]
  exact hheader.bind (image.pool.reads_decode.bind h.reads_declarations)

/-- Each body comes from bytecode that was decoded against the pool. -/
theorem Writes.bytecode (h : image.Writes file) {m : MethodDecl} (hm : m ∈ file.methods) {code : Code} (hcode : code ∈ m.code) :
    ∃ bytes, Bytecode.decode image.pool.table bytes = .ok code.instructions := by
  obtain ⟨member, hmember⟩ : ∃ member, MemberImage.WritesMethod image.pool member m := by
    have hmethods := h.methods
    generalize image.methods.items = members at hmethods
    generalize file.methods = methods at hmethods hm
    induction hmethods with
    | nil => cases hm
    | cons hfirst _ ih =>
      rcases List.mem_cons.1 hm with rfl | hm
      · exact ⟨_, hfirst⟩
      · exact ih hm
  have hwrites := hmember.code
  rw [Option.mem_def.1 hcode] at hwrites
  generalize member.attributes.items = attributes at hwrites
  cases hwrites with
  | body _ _ _ hbody _ => exact ⟨_, hbody.instructions⟩

end ClassImage

namespace ClassFile

/-- A class is read back from any file that declares it. A constant is what its slot spells. -/
theorem decode_image {image : ClassImage} {file : ClassFile} (h : image.Writes file) :
    decode ⟨image.bytes.toArray⟩ = .ok file ∧
      ∀ m ∈ file.methods, ∀ code ∈ m.code, ∀ i ∈ code.instructions,
        i.constant.isSome = i.opcode.takesConstant ∧
        ∀ c ∈ i.constant, (∀ value, image.pool.Spells c.slot value → c.value = value) ∧
          (image.pool.IsUnicode → image.pool.Spells c.slot c.value) := by
  refine ⟨?_, fun m hm code hcode i hi => ?_⟩
  · have hbytes : (ByteArray.mk image.bytes.toArray).toList = image.bytes := toList_eq _
    exact h.reads.decode ⟨[], by rw [List.append_nil, hbytes]⟩
  · obtain ⟨bytes, hbytes⟩ := h.bytecode hm hcode
    have hdecoded := Bytecode.decoded_of_decode hbytes i hi
    refine ⟨hdecoded.constant_isSome, fun c hc => ⟨fun value hvalue => ?_, fun hunicode => ?_⟩⟩
    · have heq := hdecoded.constant_eq c hc
      rw [PoolImage.constant_of_spells hvalue] at heq
      exact congrArg Constant.value (Except.ok.inj heq).symm
    · exact PoolImage.spells_of_constant hunicode (hdecoded.constant_eq c hc)

/-! ### A file -/

/-- A text whose units can be written. -/
def sampleText (text : String) (fits : (ModifiedUtf8.encode (Utf16.encode text)).length < capacity 2) : PoolItem :=
  .utf8 (Utf16.encode text) fits

/-- Names are in the slots 1, 5, 6, 7 and 8, and a number in the slots 3 and 4. -/
def samplePool : PoolImage where
  items := [sampleText "a/😀" (by decide +kernel), .classRef 1, .long (-7), sampleText "x" (by decide +kernel),
    sampleText "I" (by decide +kernel), sampleText "()V" (by decide +kernel), sampleText "Code" (by decide +kernel),
    .integer (-2), .methodHandle 6 2]
  fits := by decide

/-- `ldc` of slot 9, `ldc2_w` of slot 3, `return`. -/
def sampleBody : BodyImage where
  maxStack := 3
  maxLocals := 0
  bytecode := [18, 9, 20, 0, 3, 177]
  fits := by decide
  handlers := ⟨[⟨0, 2, 5, 2⟩], by decide⟩
  attributes := ⟨[], by decide⟩

/-- A class without a superclass, with a field and a method. The method has an attribute beside its body. -/
def sampleImage : ClassImage where
  minor := 0
  major := 52
  pool := samplePool
  flags := 33
  thisIndex := 2
  superIndex := 0
  interfaces := ⟨[2], by decide⟩
  fields := ⟨[⟨1, 5, 6, ⟨[⟨0, [1, 2], by decide⟩], by decide⟩⟩], by decide⟩
  methods := ⟨[⟨9, 5, 7, ⟨[⟨6, [3], by decide⟩, ⟨8, sampleBody.bytes, by decide⟩], by decide⟩⟩], by decide⟩
  attributes := ⟨[⟨1, [], by decide⟩], by decide⟩

def sampleFile (instructions : List Instruction) : ClassFile where
  minor := 0
  major := 52
  flags := ⟨33⟩
  name := "a/😀"
  superName := none
  interfaces := ["a/😀"]
  fields := [{ flags := ⟨1⟩, name := "x", descriptor := "I" }]
  methods := [{ flags := ⟨9⟩, name := "x", descriptor := "()V", code := some {
    maxStack := 3, maxLocals := 0, instructions, handlers := [{ start := 0, stop := 2, handler := 5, catchType := some "a/😀" }] } }]

theorem sampleImage_writes {instructions : List Instruction}
    (h : Bytecode.decode samplePool.table sampleBody.bytecode = .ok instructions) :
    sampleImage.Writes (sampleFile instructions) := by
  have hname : samplePool.ClassName 2 "a/😀" := ⟨1, rfl, _, rfl⟩
  have hbody : sampleBody.Writes samplePool ⟨3, 0, instructions, [⟨0, 2, 5, some "a/😀"⟩]⟩ :=
    ⟨rfl, rfl, h, .cons ⟨rfl, rfl, rfl, hname⟩ .nil⟩
  have hextra : MemberImage.IsExtra samplePool ⟨6, [3], by decide⟩ := ⟨Utf16.encode "I", _, rfl, by decide +kernel⟩
  have hcode := MemberImage.WritesCode.body (a := ⟨8, sampleBody.bytes, by decide⟩) (List.forall_mem_singleton.2 hextra)
    ⟨_, rfl⟩ rfl hbody (List.forall_mem_nil _)
  exact {
    minor := rfl
    major := rfl
    flags := rfl
    name := hname
    superName := .inl rfl
    interfaces := .cons hname .nil
    fields := .cons ⟨rfl, ⟨_, rfl⟩, ⟨_, rfl⟩⟩ .nil
    methods := .cons ⟨rfl, ⟨_, rfl⟩, ⟨_, rfl⟩, hcode⟩ .nil }

theorem sampleImage_comes_back : ∃ instructions, sampleImage.Writes (sampleFile instructions) ∧
    decode ⟨sampleImage.bytes.toArray⟩ = .ok (sampleFile instructions) ∧
    ∃ i ∈ instructions, ∃ c ∈ i.constant, c.slot = 3 ∧ c.value = .long (-7) := by
  have hslots : (Bytecode.decode samplePool.table sampleBody.bytecode).toOption.map
      (·.map fun i => i.constant.map Constant.slot) = some [some 9, some 3, none] := by
    decide +kernel
  cases hdecode : Bytecode.decode samplePool.table sampleBody.bytecode with
  | error =>
    rw [hdecode] at hslots
    cases hslots
  | ok instructions =>
    rw [hdecode] at hslots
    have hmem : some 3 ∈ instructions.map fun i => i.constant.map Constant.slot := by
      rw [show instructions.map (fun i => i.constant.map Constant.slot) = [some 9, some 3, none] from Option.some.inj hslots]
      decide
    obtain ⟨i, hi, hslot⟩ := List.mem_map.1 hmem
    obtain ⟨c, hc, hslot⟩ := Option.map_eq_some_iff.1 hslot
    have hwrites := sampleImage_writes hdecode
    obtain ⟨hfile, hconstants⟩ := decode_image hwrites
    obtain ⟨-, hspelled⟩ := hconstants _ (List.mem_singleton_self _) _ rfl i hi
    have hspells : samplePool.Spells c.slot (.long (-7 : Int64).toInt) := .long (by rw [hslot]; rfl)
    exact ⟨instructions, hwrites, hfile, i, hi, c, hc, hslot, (hspelled c hc).1 _ hspells⟩

end ClassFile

end JvmAot
