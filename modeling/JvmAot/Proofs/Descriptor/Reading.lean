import JvmAot.Descriptor.MethodType
import Mathlib.Data.List.TakeWhile

/-! # Descriptors are read as they are written

`MethodType.eq_toText_of_parse`: a text that is read as a method type is the written form of the type. So no two
texts are read as the same type. -/

namespace JvmAot

theorem BaseType.letter_ofLetter (c : Char) : (ofLetter c).letter = c := by
  unfold ofLetter
  split <;> rfl

namespace FieldType

/-- A field type that a text can be read as: its leaf is known, and a name stands with a reference only. -/
def IsValid (t : FieldType) : Prop :=
  match t.base with
  | .reference => t.className ≠ "" ∧ ';' ∉ t.className.toList
  | .other _ => False
  | _ => t.className = ""

theorem readAfter_of_ok {dimension : Nat} {text rest : List Char} {t : FieldType}
    (h : readAfter dimension text = .ok (t, rest)) :
    List.replicate dimension '[' ++ text = t.chars ++ rest ∧ t.IsValid := by
  fun_induction readAfter dimension text with
  | case1 => cases h
  | case2 dimension tail ih =>
    obtain ⟨htext, hvalid⟩ := ih h
    refine ⟨?_, hvalid⟩
    rw [← htext, List.replicate_succ', List.append_assoc]
    rfl
  | case3 dimension tail c name d after hafter hname =>
    obtain ⟨rfl, rfl⟩ := Prod.mk.inj (Except.ok.inj h)
    have hsplit := List.takeWhile_append_dropWhile (p := (· != ';')) (l := tail)
    have hd : d = ';' := by
      have := List.head_dropWhile_not (· != ';') (l := tail) (by simp [hafter])
      simpa [hafter] using this
    have hname' : ';' ∉ c :: name := by
      intro hmem
      rw [← hname] at hmem
      simpa using List.mem_takeWhile_imp hmem
    rw [hname, hafter, hd] at hsplit
    refine ⟨?_, ?_, ?_⟩
    · simp [chars, BaseType.letter, ← hsplit]
    · simp
    · simpa using hname'
  | case4 => cases h
  | case5 => cases h
  | case6 dimension c tail hbracket hletter hother =>
    obtain ⟨rfl, rfl⟩ := Prod.mk.inj (Except.ok.inj h)
    have hbase : BaseType.ofLetter c ≠ .reference := fun heq => hletter (by rw [← BaseType.letter_ofLetter c, heq]; rfl)
    refine ⟨by simp [chars, BaseType.letter_ofLetter, hbase], ?_⟩
    generalize BaseType.ofLetter c = base at hbase hother
    cases base with
    | reference => exact absurd rfl hbase
    | other letter => exact (hother letter rfl).elim
    | _ => rfl

/-- What is read is the written form of the type. -/
theorem read_of_ok {text rest : List Char} {t : FieldType} (h : read text = .ok (t, rest)) :
    text = t.chars ++ rest ∧ t.IsValid :=
  readAfter_of_ok h

/-- The written form of a type is read as the type. -/
theorem readAfter_chars {t : FieldType} (h : t.IsValid) (dimension : Nat) (rest : List Char) :
    readAfter dimension (t.chars ++ rest) = .ok ({ t with dimension := dimension + t.dimension }, rest) := by
  obtain ⟨own, base, className⟩ := t
  induction own generalizing dimension with
  | zero =>
    cases base with
    | reference =>
      obtain ⟨hname, hplain⟩ := h
      have hall : ∀ c ∈ className.toList, (c != ';') = true := fun c hc => by
        simpa using fun heq : c = ';' => hplain (heq ▸ hc)
      obtain ⟨c, tail, hc⟩ : ∃ c tail, className.toList = c :: tail :=
        List.exists_cons_of_ne_nil fun hnil => hname (String.toList_eq_nil_iff.1 hnil)
      have hname : String.ofList (c :: tail) = className := by rw [← hc, String.ofList_toList]
      have htake : (className.toList ++ ';' :: rest).takeWhile (· != ';') = c :: tail := by
        rw [List.takeWhile_append_of_pos hall, List.takeWhile_cons_of_neg (by simp), List.append_nil, hc]
      have hdrop : (className.toList ++ ';' :: rest).dropWhile (· != ';') = ';' :: rest := by
        rw [List.dropWhile_append_of_pos hall, List.dropWhile_cons_of_neg (by simp)]
      have hchars : chars ⟨0, .reference, className⟩ ++ rest = 'L' :: (className.toList ++ ';' :: rest) := by
        simp [chars, BaseType.letter]
      rw [hchars, readAfter, htake, hdrop]
      simp only [hname, Nat.add_zero]
    | other => exact h.elim
    | _ =>
      cases (h : className = "")
      simp [chars, BaseType.letter, readAfter, BaseType.ofLetter]
  | succ own ih =>
    have hnext := ih (dimension + 1) h
    rw [Nat.add_right_comm] at hnext
    simpa [chars, List.replicate_succ, readAfter, Nat.add_assoc] using hnext

theorem parse_toText {t : FieldType} (h : t.IsValid) : parse t.toText = .ok t := by
  have hread := readAfter_chars h 0 []
  rw [List.append_nil, Nat.zero_add] at hread
  rw [parse, toText, String.toList_ofList, read, hread]

/-- A text is the written form of the type that it is read as. -/
theorem toText_of_parse {text : String} {t : FieldType} (h : parse text = .ok t) : text = t.toText ∧ t.IsValid := by
  unfold parse at h
  split at h
  · cases h
  · rename_i hread
    cases h
    obtain ⟨htext, hvalid⟩ := read_of_ok hread
    rw [List.append_nil] at htext
    exact ⟨by rw [toText, ← htext, String.ofList_toList], hvalid⟩
  · cases h

end FieldType

namespace MethodType

/-- The written form of a result, as characters. -/
def resultChars : Option FieldType → List Char
  | none => ['V']
  | some t => t.chars

theorem toList_toText (t : MethodType) :
    t.toText.toList = '(' :: t.parameters.flatMap FieldType.chars ++ ')' :: resultChars t.result := by
  obtain ⟨parameters, result⟩ := t
  have hjoin : (String.join (parameters.map FieldType.toText)).toList = parameters.flatMap FieldType.chars := by
    rw [String.toList_join, List.flatMap_map]
    simp [FieldType.toText]
  cases result <;> simp [toText, hjoin, resultChars, FieldType.toText]

/-- A method type that a text can be read as. -/
def IsValid (t : MethodType) : Prop :=
  (∀ p ∈ t.parameters, p.IsValid) ∧ ∀ r ∈ t.result, r.IsValid

theorem readParameters_of_ok {text rest : List Char} {types : List FieldType}
    (h : readParameters text = .ok (types, rest)) :
    text = types.flatMap FieldType.chars ++ ')' :: rest ∧ ∀ t ∈ types, t.IsValid := by
  fun_induction readParameters text generalizing types rest with
  | case1 => cases h
  | case2 tail =>
    cases h
    exact ⟨rfl, nofun⟩
  | case3 => cases h
  | case4 => cases h
  | case5 c tail hc t rest' hread hlt types' rest'' hrest ih =>
    cases h
    obtain ⟨htext, hvalid⟩ := FieldType.read_of_ok hread
    obtain ⟨hrest, hvalids⟩ := ih hrest
    refine ⟨?_, List.forall_mem_cons.2 ⟨hvalid, hvalids⟩⟩
    rw [htext, hrest, List.flatMap_cons, List.append_assoc]

theorem readResult_of_some {text : List Char} {result : Option FieldType} (h : readResult text = some result) :
    text = resultChars result ∧ ∀ r ∈ result, r.IsValid := by
  unfold readResult at h
  split at h
  · cases h
    exact ⟨‹_›, nofun⟩
  split at h
  · rename_i t hread
    cases h
    obtain ⟨htext, hvalid⟩ := FieldType.read_of_ok hread
    exact ⟨by simpa [resultChars] using htext, by simpa using hvalid⟩
  · cases h

/-- A text is the written form of the type that it is read as. -/
theorem eq_toText_of_parse {text : String} {t : MethodType} (h : parse text = .ok t) : text = t.toText ∧ t.IsValid := by
  unfold parse at h
  split at h
  · rename_i rest htext
    split at h
    · cases h
    split at h
    · cases h
    · rename_i parameters rest' hparameters
      split at h
      · rename_i result hresult
        cases h
        obtain ⟨hrest, hvalids⟩ := readParameters_of_ok hparameters
        obtain ⟨hrest', hvalid⟩ := readResult_of_some hresult
        refine ⟨?_, hvalids, hvalid⟩
        rw [← String.toList_inj, toList_toText, htext, hrest, hrest']
        rfl
      · cases h
  · cases h

end MethodType

end JvmAot
