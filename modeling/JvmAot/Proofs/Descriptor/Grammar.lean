import Mathlib.Algebra.Order.Ring.Int
import JvmAot.Proofs.Descriptor.Reading

/-! # The grammar of descriptors

`FieldText` and `MethodText` say which texts are descriptors, without types. `descriptors_read_exactly`: these texts
are read and no others, and reading and writing are inverse to each other. A class name may hold any character but a
semicolon, so the parentheses and brackets in it are none of the descriptor; still a text has one reading only. -/

namespace JvmAot

/-- The letters of the primitive types. -/
def primitiveLetters : List Char :=
  ['Z', 'B', 'S', 'C', 'I', 'F', 'J', 'D']

/-- The text of a type that is no array. -/
inductive LeafText : List Char → Prop
  | primitive {letter : Char} (h : letter ∈ primitiveLetters) : LeafText [letter]
  | reference {name : List Char} (hname : name ≠ []) (hplain : ';' ∉ name) : LeafText ('L' :: name ++ [';'])

/-- The text of a field type. -/
def FieldText (text : List Char) : Prop :=
  ∃ dimension leaf, LeafText leaf ∧ text = List.replicate dimension '[' ++ leaf

/-- A text is that of a method type with these texts of its parameters and of its result. -/
structure MethodText (parameters : List (List Char)) (result text : List Char) : Prop where
  areTypes : ∀ p ∈ parameters, FieldText p
  isResult : result = ['V'] ∨ FieldText result
  text_eq : text = '(' :: parameters.flatten ++ ')' :: result

/-- The number of words of a value, by the text of its type. -/
def textWords (text : List Char) : Nat :=
  if text = ['J'] ∨ text = ['D'] then 2 else 1

namespace FieldType

variable {t : FieldType}

theorem mem_primitiveLetters (b : BaseType) (href : b ≠ .reference) (hother : ∀ letter, b ≠ .other letter) :
    b.letter ∈ primitiveLetters := by
  cases b with
  | reference => exact absurd rfl href
  | other letter => exact absurd rfl (hother letter)
  | _ => decide

/-- Texts of field types are the written forms of field types. -/
theorem fieldText_iff {text : List Char} : FieldText text ↔ ∃ t : FieldType, t.IsValid ∧ text = t.chars := by
  constructor
  · rintro ⟨dimension, leaf, hleaf, rfl⟩
    cases hleaf with
    | @primitive letter h =>
      refine ⟨⟨dimension, BaseType.ofLetter letter, ""⟩, ?_⟩
      simp only [primitiveLetters, List.mem_cons, List.not_mem_nil, or_false] at h
      rcases h with rfl | rfl | rfl | rfl | rfl | rfl | rfl | rfl <;> exact ⟨rfl, rfl⟩
    | @reference name hname hplain =>
      refine ⟨⟨dimension, .reference, String.ofList name⟩, ⟨by simpa using hname, by simpa using hplain⟩, ?_⟩
      simp [chars, BaseType.letter]
  · rintro ⟨⟨dimension, base, className⟩, hvalid, rfl⟩
    by_cases href : base = .reference
    · subst href
      obtain ⟨hname, hplain⟩ := hvalid
      exact ⟨dimension, _, .reference (by simpa using hname) hplain, by simp [chars, BaseType.letter]⟩
    · have hother (letter : Char) : base ≠ .other letter := by
        rintro rfl
        exact hvalid
      exact ⟨dimension, _, .primitive (mem_primitiveLetters base href hother), by simp [chars, href]⟩

theorem parse_eq_ok_iff {text : String} : parse text = .ok t ↔ t.IsValid ∧ t.toText = text := by
  constructor
  · intro h
    obtain ⟨htext, hvalid⟩ := toText_of_parse h
    exact ⟨hvalid, htext.symm⟩
  · rintro ⟨hvalid, rfl⟩
    exact parse_toText hvalid

theorem exists_parse_iff {text : String} : (∃ t, parse text = .ok t) ↔ FieldText text.toList := by
  rw [fieldText_iff]
  refine exists_congr fun t => parse_eq_ok_iff.trans (and_congr_right fun _ => ?_)
  rw [toText, ← String.toList_inj, String.toList_ofList, eq_comm]

theorem kind_toFailure (whole : String) (unread : List Char) (refusal : Refusal) :
    (refusal.toFailure whole unread).kind = .resolution := by
  cases refusal <;> rfl

theorem kind_of_parse {text : String} {failure : Failure} (h : parse text = .error failure) :
    failure.kind = .resolution := by
  unfold parse at h
  split at h
  · cases h
    exact kind_toFailure ..
  · cases h
  · cases h
    rfl

/-- The first character of a field type is none that ends or replaces one in a method type. -/
theorem head_chars (h : t.IsValid) : ∃ c rest, t.chars = c :: rest ∧ c ∈ '[' :: 'L' :: primitiveLetters := by
  obtain ⟨dimension, base, className⟩ := t
  cases dimension with
  | succ dimension => exact ⟨_, _, by simp only [chars, List.replicate_succ]; rfl, List.mem_cons_self ..⟩
  | zero =>
    refine ⟨base.letter, _, rfl, List.mem_cons_of_mem _ ?_⟩
    by_cases href : base = .reference
    · rw [href]
      exact List.mem_cons_self ..
    · refine List.mem_cons_of_mem _ (mem_primitiveLetters base href fun letter heq => ?_)
      subst heq
      exact h

/-- A value takes two words if its type is written as one of two letters. -/
theorem words_eq (h : t.IsValid) : t.words = textWords t.chars := by
  obtain ⟨dimension, base, className⟩ := t
  cases dimension with
  | succ dimension => simp [words, bytes, isReference, isArray, textWords, chars, List.replicate_succ]
  | zero =>
    cases base with
    | reference => simp [words, bytes, isReference, isArray, textWords, chars, BaseType.letter]
    | other => exact h.elim
    | _ => rfl

end FieldType

namespace MethodType

variable {t : MethodType} {text : String}

theorem readParameters_chars {types : List FieldType} (h : ∀ t ∈ types, t.IsValid) (rest : List Char) :
    readParameters (types.flatMap FieldType.chars ++ ')' :: rest) = .ok (types, rest) := by
  induction types with
  | nil => rw [List.flatMap_nil, List.nil_append, readParameters, if_pos rfl]
  | cons t types ih =>
    obtain ⟨hvalid, hvalids⟩ := List.forall_mem_cons.1 h
    obtain ⟨c, tail, hchars, hc⟩ := FieldType.head_chars hvalid
    have hread := FieldType.readAfter_chars hvalid 0 (types.flatMap FieldType.chars ++ ')' :: rest)
    rw [Nat.zero_add, hchars, List.cons_append] at hread
    -- the first character of a type does not end the parameters
    rw [List.flatMap_cons, List.append_assoc, hchars, List.cons_append, readParameters, if_neg]
    · split
      · rename_i heq
        rw [FieldType.read, hread] at heq
        cases heq
      · rename_i heq
        rw [FieldType.read, hread] at heq
        cases heq
        rw [ih hvalids]
    · rintro rfl
      exact absurd hc (by decide)

theorem readResult_resultChars {result : Option FieldType} (h : ∀ r ∈ result, r.IsValid) :
    readResult (resultChars result) = some result := by
  cases result with
  | none => exact if_pos rfl
  | some r =>
    have hvalid := h r rfl
    obtain ⟨c, tail, hchars, hc⟩ := FieldType.head_chars hvalid
    have hread := FieldType.readAfter_chars hvalid 0 []
    rw [List.append_nil, Nat.zero_add] at hread
    rw [resultChars, readResult, if_neg, FieldType.read, hread]
    rw [hchars]
    rintro ⟨⟩
    exact absurd hc (by decide)

/-- No method type is too short to be read. -/
theorem three_le_utf8ByteSize (h : t.IsValid) : 3 ≤ t.toText.utf8ByteSize := by
  obtain ⟨result, htext, hresult⟩ : ∃ result, t.toText =
      "(" ++ String.join (t.parameters.map FieldType.toText) ++ ")" ++ result ∧ result ≠ "" := by
    refine ⟨_, rfl, ?_⟩
    cases hresult : t.result with
    | none => decide
    | some r =>
      obtain ⟨c, tail, hchars, -⟩ := FieldType.head_chars (h.2 r hresult)
      simp [FieldType.toText, hchars]
  have hpos := mt String.utf8ByteSize_eq_zero_iff.1 hresult
  rw [htext, String.utf8ByteSize_append, String.utf8ByteSize_append, String.utf8ByteSize_append,
    show "(".utf8ByteSize = 1 from rfl, show ")".utf8ByteSize = 1 from rfl]
  omega

theorem parse_toText (h : t.IsValid) : parse t.toText = .ok t := by
  have hsize : ¬ t.toText.utf8ByteSize < 3 := Nat.not_lt.2 (three_le_utf8ByteSize h)
  simp only [parse, toList_toText, List.cons_append, if_neg hsize, readParameters_chars h.1,
    readResult_resultChars h.2]

theorem parse_eq_ok_iff : parse text = .ok t ↔ t.IsValid ∧ t.toText = text := by
  constructor
  · intro h
    obtain ⟨htext, hvalid⟩ := eq_toText_of_parse h
    exact ⟨hvalid, htext.symm⟩
  · rintro ⟨hvalid, rfl⟩
    exact parse_toText hvalid

theorem kind_of_parse {failure : Failure} (h : parse text = .error failure) : failure.kind = .resolution := by
  unfold parse at h
  split at h
  · split at h
    · cases h
      rfl
    split at h
    · cases h
      exact FieldType.kind_toFailure ..
    split at h
    · cases h
    · cases h
      rfl
  · cases h
    rfl

/-! ### Texts of method types -/

theorem methodText_toText (h : t.IsValid) :
    MethodText (t.parameters.map FieldType.chars) (resultChars t.result) t.toText.toList := by
  refine ⟨?_, ?_, by rw [toList_toText, List.flatMap_def]⟩
  · intro p hp
    obtain ⟨type, htype, rfl⟩ := List.mem_map.1 hp
    exact FieldType.fieldText_iff.2 ⟨type, h.1 type htype, rfl⟩
  · cases hresult : t.result with
    | none => exact .inl rfl
    | some r => exact .inr (FieldType.fieldText_iff.2 ⟨r, h.2 r hresult, rfl⟩)

/-- Each text of a method type is the written form of a method type with these parts. -/
theorem exists_of_methodText {parameters : List (List Char)} {result : List Char}
    (h : MethodText parameters result text.toList) : ∃ t : MethodType, t.IsValid ∧ t.toText = text ∧
      parameters = t.parameters.map FieldType.chars ∧ result = resultChars t.result := by
  have hparameters : ∀ parameters : List (List Char), (∀ p ∈ parameters, FieldText p) →
      ∃ types : List FieldType, (∀ t ∈ types, t.IsValid) ∧ parameters = types.map FieldType.chars := by
    intro parameters hall
    induction parameters with
    | nil => exact ⟨[], by simp, rfl⟩
    | cons p rest ih =>
      obtain ⟨hp, hrest⟩ := List.forall_mem_cons.1 hall
      obtain ⟨type, hvalid, rfl⟩ := FieldType.fieldText_iff.1 hp
      obtain ⟨types, hvalids, rfl⟩ := ih hrest
      exact ⟨type :: types, List.forall_mem_cons.2 ⟨hvalid, hvalids⟩, rfl⟩
  obtain ⟨types, hvalids, rfl⟩ := hparameters parameters h.areTypes
  obtain ⟨r, hvalid, rfl⟩ : ∃ r : Option FieldType, (∀ t ∈ r, t.IsValid) ∧ result = resultChars r := by
    rcases h.isResult with rfl | hresult
    · exact ⟨none, by simp, rfl⟩
    · obtain ⟨type, hvalid, rfl⟩ := FieldType.fieldText_iff.1 hresult
      exact ⟨some type, by simpa using hvalid, rfl⟩
  refine ⟨⟨types, r⟩, ⟨hvalids, hvalid⟩, ?_, rfl, rfl⟩
  rw [← String.toList_inj, toList_toText, h.text_eq, List.flatMap_def]

theorem exists_parse_iff :
    (∃ t, parse text = .ok t) ↔ ∃ parameters result, MethodText parameters result text.toList := by
  constructor
  · rintro ⟨t, h⟩
    obtain ⟨hvalid, rfl⟩ := parse_eq_ok_iff.1 h
    exact ⟨_, _, methodText_toText hvalid⟩
  · rintro ⟨parameters, result, h⟩
    obtain ⟨t, hvalid, rfl, -⟩ := exists_of_methodText h
    exact ⟨t, parse_toText hvalid⟩

/-- A text has one reading: the parts of the text are those of the type. -/
theorem parts_of_methodText {parameters : List (List Char)} {result : List Char} (h : parse text = .ok t)
    (hparts : MethodText parameters result text.toList) :
    parameters = t.parameters.map FieldType.chars ∧ result = resultChars t.result := by
  obtain ⟨t', hvalid, rfl, hparameters, hresult⟩ := exists_of_methodText hparts
  obtain rfl : t' = t := Except.ok.inj ((parse_toText hvalid).symm.trans h)
  exact ⟨hparameters, hresult⟩

theorem parameterWords_eq (h : t.IsValid) :
    t.parameterWords = ((t.parameters.map FieldType.chars).map textWords).sum := by
  change (t.parameters.map FieldType.words).sum = _
  rw [List.map_map]
  exact congrArg List.sum (List.map_congr_left fun p hp => FieldType.words_eq (h.1 p hp))

theorem resultWords_eq (h : t.IsValid) :
    t.resultWords = if resultChars t.result = ['V'] then 0 else textWords (resultChars t.result) := by
  unfold resultWords
  cases hresult : t.result with
  | none => rfl
  | some r =>
    obtain ⟨c, tail, hchars, hc⟩ := FieldType.head_chars (h.2 r hresult)
    rw [if_neg]
    · exact FieldType.words_eq (h.2 r hresult)
    · rw [resultChars, hchars]
      rintro ⟨⟩
      exact absurd hc (by decide)

end MethodType

/-- Descriptors are read exactly. A text is read as a field type if and only if it is the text of one, and then the
type is a proper one whose written form is the text; the written form of a proper type is read as the type. The same
holds for method types. However the text of a method type is split into texts of parameters and of a result, the
parameters of the type are those, in their order, and the words of a value are those that the texts say. What is
refused is refused with a resolution error. -/
theorem descriptors_read_exactly :
    (∀ text : String,
      ((∃ t, FieldType.parse text = .ok t) ↔ FieldText text.toList) ∧
      (∀ t, FieldType.parse text = .ok t ↔ t.IsValid ∧ t.toText = text) ∧
      ∀ failure, FieldType.parse text = .error failure → failure.kind = .resolution) ∧
    ∀ text : String,
      ((∃ t, MethodType.parse text = .ok t) ↔ ∃ parameters result, MethodText parameters result text.toList) ∧
      (∀ t, MethodType.parse text = .ok t ↔ t.IsValid ∧ t.toText = text) ∧
      (∀ t parameters result, MethodType.parse text = .ok t → MethodText parameters result text.toList →
        t.parameters.map (·.toText.toList) = parameters ∧
        t.parameterWords = (parameters.map textWords).sum ∧
        t.resultWords = if result = ['V'] then 0 else textWords result) ∧
      ∀ failure, MethodType.parse text = .error failure → failure.kind = .resolution := by
  refine ⟨fun text => ⟨FieldType.exists_parse_iff, fun t => FieldType.parse_eq_ok_iff,
    fun failure => FieldType.kind_of_parse⟩, fun text => ⟨MethodType.exists_parse_iff,
    fun t => MethodType.parse_eq_ok_iff, fun t parameters result h hparts => ?_,
    fun failure => MethodType.kind_of_parse⟩⟩
  obtain ⟨rfl, rfl⟩ := MethodType.parts_of_methodText h hparts
  have hvalid := (MethodType.parse_eq_ok_iff.1 h).1
  refine ⟨?_, MethodType.parameterWords_eq hvalid, MethodType.resultWords_eq hvalid⟩
  exact List.map_congr_left fun p _ => String.toList_ofList

/-- A parenthesis in a class name is no end of the parameters. -/
theorem parenthesis_in_class_name :
    MethodText [['I'], ['[', 'L', 'a', ')', 'b', ';'], ['J']] ['V'] "(I[La)b;J)V".toList ∧
      ∃ t, MethodType.parse "(I[La)b;J)V" = .ok t ∧
        t.parameters.map (·.toText.toList) = [['I'], ['[', 'L', 'a', ')', 'b', ';'], ['J']] ∧
        t.parameterWords = 4 ∧ t.resultWords = 0 := by
  have hint : FieldText ['I'] := ⟨0, _, .primitive (by decide), rfl⟩
  have hclass : FieldText ['[', 'L', 'a', ')', 'b', ';'] :=
    ⟨1, _, @LeafText.reference ['a', ')', 'b'] (by decide) (by decide), rfl⟩
  have hlong : FieldText ['J'] := ⟨0, _, .primitive (by decide), rfl⟩
  have hparts : MethodText [['I'], ['[', 'L', 'a', ')', 'b', ';'], ['J']] ['V'] "(I[La)b;J)V".toList :=
    ⟨by simp [hint, hclass, hlong], .inl rfl, rfl⟩
  obtain ⟨haccepted, -, hread, -⟩ := descriptors_read_exactly.2 "(I[La)b;J)V"
  obtain ⟨t, ht⟩ := haccepted.2 ⟨_, _, hparts⟩
  exact ⟨hparts, t, ht, hread t _ _ ht hparts⟩

end JvmAot
