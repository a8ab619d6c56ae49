import JvmAot.Proofs.Heap.Serialization

/-! # Arrays in data

An assembler reads the data of an array as a word for its vtable, a word for its length, and its elements one after the
other (`Heap.Serializes.array`), whatever the layout of array objects is. -/

namespace JvmAot

/-! ### The format of arrays -/

/-- The object is an array. -/
def Object.IsArray : Object → Prop
  | primitiveArray .. | objectArray .. => True
  | ofClass .. | metadata .. => False

/-- The elements of an array as data, of `size` bytes each. -/
inductive Object.HasCells (t : LabelTable) : Object → (size : Nat) → List (List AssembledByte) → Prop
  | primitiveArray (element : BaseType) (values : List Int) :
      HasCells t (.primitiveArray element values) element.bytes (values.map (numberData element.bytes))
  | objectArray {type : String} {elements : List Value} {texts : List String}
      (h : List.Forall₂ t.Names elements texts) : HasCells t (.objectArray type elements) 4 (texts.map (itemData 4))

/-- The bytes are those of an array with elements of `size` bytes each, from the offset `header` on, and with its length
in the word before them. -/
structure ArrayFormat (header size : Nat) (cells : List (List AssembledByte)) (bytes : List AssembledByte) : Prop where
  length : ∃ offset, offset + 4 = header ∧ numberData 4 cells.length <+: bytes.drop offset
  element : ∀ i cell, cells[i]? = some cell → cell <+: bytes.drop (header + i * size)

variable {r : ObjectResolver} {h : Heap} {t : LabelTable} {o : Object} {size : Nat} {cells : List (List AssembledByte)}
  {lines more : List Line} {bytes bytes' : List AssembledByte}

theorem Object.HasCells.length_of_mem (hcells : o.HasCells t size cells) : ∀ cell ∈ cells, cell.length = size := by
  intro cell hcell
  cases hcells with
  | primitiveArray element values =>
    obtain ⟨n, -, rfl⟩ := List.mem_map.1 hcell
    exact length_numberData ..
  | objectArray =>
    obtain ⟨text, -, rfl⟩ := List.mem_map.1 hcell
    exact length_itemData ..

/-! ### Reading -/

theorem ReadAs.append (hlines : ReadAs bytes lines) (hmore : ReadAs bytes' more) :
    ReadAs (bytes ++ bytes') (lines ++ more) :=
  fun position => assemble?_append (hlines position) (hmore _)

theorem RefersTo.readAs {values : List Value} (hlines : RefersTo t values lines) :
    ∃ texts, List.Forall₂ t.Names values texts ∧ ReadAs (texts.flatMap (itemData 4)) lines := by
  obtain ⟨texts, hnames, rfl⟩ := hlines
  refine ⟨texts, hnames, fun position => ?_⟩
  simp only [assemble?, Line.data?, directiveData?, Option.map_some, List.append_nil]

theorem RefersTo.readAs_singleton {v : Value} (hlines : RefersTo t [v] lines) :
    ∃ text, t.Names v text ∧ ReadAs (itemData 4 text) lines := by
  obtain ⟨texts, hnames, hread⟩ := hlines.readAs
  obtain ⟨text, hname, hnil⟩ : ∃ text, t.Names v text ∧ texts = [text] := by
    cases hnames with
    | cons hname hrest =>
      cases hrest
      exact ⟨_, hname, rfl⟩
  rw [hnil, List.flatMap_singleton] at hread
  exact ⟨text, hname, hread⟩

/-- The data of an array is read as its vtable, its length and its elements. -/
theorem Heap.Serializes.array (hlines : h.Serializes r t o lines) (ho : o.IsArray) (start : Nat) :
    ∃ id text size cells padding, t.Names (h.vtable id) text ∧ o.HasCells t size cells ∧
      assemble? start lines =
        some (itemData 4 text ++ numberData 4 cells.length ++ cells.flatten ++ zeroData padding) := by
  cases hlines with
  | @primitiveArray element values metadata _ _ _ _ _ hvtable hlength helements hpadding =>
    obtain ⟨text, hname, hvtable⟩ := hvtable.readAs_singleton
    have hcount : (values.map (numberData element.bytes)).length = values.length := List.length_map ..
    have hread := assemble?_append (((hvtable.append hlength).append helements) start) (hpadding _)
    rw [List.flatMap_def, ← hcount] at hread
    exact ⟨metadata, text, _, _, _, hname, .primitiveArray element values, hread⟩
  | @emptyArray _ metadata _ _ _ hvtable hlength =>
    obtain ⟨text, hname, hvtable⟩ := hvtable.readAs_singleton
    refine ⟨metadata, text, _, _, 0, hname, .objectArray .nil, ?_⟩
    rw [hvtable.append hlength start, List.map_nil, List.flatten_nil, List.append_nil, zeroData, List.replicate_zero,
      List.append_nil]
    rfl
  | @objectArray _ elements metadata _ _ _ _ hvtable hlength _ helements =>
    obtain ⟨text, hname, hvtable⟩ := hvtable.readAs_singleton
    obtain ⟨texts, hnames, helements⟩ := helements.readAs
    rw [((hvtable.append hlength).append helements) start, List.flatMap_def]
    refine ⟨metadata, text, _, _, 0, hname, .objectArray hnames, ?_⟩
    rw [List.length_map, hnames.length_eq, zeroData, List.replicate_zero, List.append_nil]
  | ofClass => cases ho
  | metadata => cases ho

/-- Parts of equal size stand one after the other. -/
theorem prefix_drop_flatten (hsize : ∀ cell ∈ cells, cell.length = size) {i : Nat} {cell : List AssembledByte}
    (hcell : cells[i]? = some cell) (rest : List AssembledByte) : cell <+: (cells.flatten ++ rest).drop (i * size) := by
  induction cells generalizing i with
  | nil => cases hcell
  | cons first cells ih =>
    obtain ⟨hfirst, hcells⟩ := List.forall_mem_cons.1 hsize
    cases i with
    | zero =>
      cases hcell
      rw [Nat.zero_mul, List.drop_zero, List.flatten_cons, List.append_assoc]
      exact List.prefix_append ..
    | succ i =>
      have hlater := ih hcells hcell
      rw [Nat.succ_mul, Nat.add_comm, ← List.drop_drop, List.flatten_cons, List.append_assoc, ← hfirst, List.drop_left,
        hfirst]
      exact hlater

/-- Behind a vtable and a length, elements have a header of two words. -/
theorem arrayFormat_eight (hsize : ∀ cell ∈ cells, cell.length = size) (text : String) (rest : List AssembledByte) :
    ArrayFormat 8 size cells (itemData 4 text ++ numberData 4 cells.length ++ cells.flatten ++ rest) := by
  rw [List.append_assoc, List.append_assoc]
  refine ⟨⟨4, rfl, ?_⟩, fun i cell hcell => ?_⟩
  · rw [List.drop_left' (length_itemData ..)]
    exact List.prefix_append ..
  · rw [show 8 + i * size = 4 + (4 + i * size) by omega, ← List.drop_drop, List.drop_left' (length_itemData ..),
      ← List.drop_drop, List.drop_left' (length_numberData ..)]
    exact prefix_drop_flatten hsize hcell rest

/-! ### The first element -/

theorem eq_of_mem_itemData {x item : String} {n part : Nat} (hmem : .address x part ∈ itemData n item) : x = item := by
  unfold itemData at hmem
  split at hmem
  · obtain ⟨byte, -, heq⟩ := List.mem_map.1 hmem
    cases heq
  · obtain ⟨k, -, heq⟩ := List.mem_map.1 hmem
    cases heq
    rfl

theorem address_not_mem_numberData {x : String} {n part : Nat} {value : Int} :
    .address x part ∉ numberData n value := by
  intro hmem
  obtain ⟨byte, -, heq⟩ := List.mem_map.1 hmem
  cases heq

/-- An element that occurs once has one place. -/
theorem eq_length_of_getElem? {α : Type} {before after : List α} {x : α} {k : Nat} (hbefore : x ∉ before)
    (hafter : x ∉ after) (hk : (before ++ x :: after)[k]? = some x) : k = before.length := by
  rcases Nat.lt_trichotomy k before.length with hlt | heq | hgt
  · rw [List.getElem?_append_left hlt] at hk
    exact absurd (List.mem_of_getElem? hk) hbefore
  · exact heq
  · rw [List.getElem?_append_right (by omega), List.getElem?_cons, if_neg (by omega)] at hk
    exact absurd (List.mem_of_getElem? hk) hafter

/-- An address in the first element that is neither the vtable nor in a later element stands behind two words and at no
other offset. -/
theorem eight_of_prefix_drop {x text : String} {texts : List String} {length : Int} {padding offset : Nat}
    (haddress : itemData 4 x = addressData 4 x) (htext : x ≠ text) (htexts : x ∉ texts)
    (hstand : itemData 4 x <+: (itemData 4 text ++ numberData 4 length ++ ((x :: texts).map (itemData 4)).flatten ++
      zeroData padding).drop offset) : offset = 8 := by
  have hbefore : AssembledByte.address x 0 ∉ itemData 4 text ++ numberData 4 length := by
    intro hmem
    rcases List.mem_append.1 hmem with hmem | hmem
    · exact htext (eq_of_mem_itemData hmem)
    · exact address_not_mem_numberData hmem
  have hafter : AssembledByte.address x 0 ∉
      (List.range' 1 3).map (.address x) ++ ((texts.map (itemData 4)).flatten ++ zeroData padding) := by
    intro hmem
    rcases List.mem_append.1 hmem with hmem | hmem
    · simp at hmem
    rcases List.mem_append.1 hmem with hmem | hmem
    · obtain ⟨word, hword, hmem⟩ := List.mem_flatten.1 hmem
      obtain ⟨item, hitem, rfl⟩ := List.mem_map.1 hword
      exact htexts (eq_of_mem_itemData hmem ▸ hitem)
    · cases List.eq_of_mem_replicate hmem
  have hword : addressData 4 x = .address x 0 :: (List.range' 1 3).map (.address x) := rfl
  have hlength : (itemData 4 text ++ numberData 4 length).length = 8 := by
    rw [List.length_append, length_itemData, length_numberData]
  obtain ⟨rest, hrest⟩ := hstand
  have hget := congrArg List.head? hrest
  rw [haddress, List.head?_drop, List.map_cons, List.flatten_cons, haddress, hword] at hget
  rw [← hlength]
  exact eq_length_of_getElem? hbefore hafter (by simpa using hget.symm)

end JvmAot
