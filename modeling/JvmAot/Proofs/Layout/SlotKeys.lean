import JvmAot.Layout.Vtable
import JvmAot.Proofs.Descriptor.Grammar

/-! # What the key of a slot shows

The key of a slot holds the parameters up to the first closing parenthesis. That is the end of the parameters unless a
class name holds one, which is legal. `slotKey_shows_parameters` says exactly which parameters have a key in common:
equal ones, and those that differ only behind a parenthesis in a class name. -/

namespace JvmAot

/-! ### Texts up to a parenthesis -/

/-- The characters before the first closing parenthesis. -/
def beforeParenthesis (text : List Char) : List Char :=
  text.takeWhile (· != ')')

section
variable {text more more' : List Char}

theorem not_mem_beforeParenthesis (text : List Char) : ')' ∉ beforeParenthesis text :=
  fun h => by simpa using List.mem_takeWhile_imp h

theorem beforeParenthesis_append_of_not_mem (h : ')' ∉ text) (more : List Char) :
    beforeParenthesis (text ++ more) = text ++ beforeParenthesis more := by
  refine List.takeWhile_append_of_pos fun c hc => ?_
  simpa using fun heq : c = ')' => h (heq ▸ hc)

theorem beforeParenthesis_eq_self_iff : beforeParenthesis text = text ↔ ')' ∉ text := by
  refine ⟨fun h => h ▸ not_mem_beforeParenthesis text, fun h => ?_⟩
  have happend := beforeParenthesis_append_of_not_mem h []
  rwa [List.append_nil, show beforeParenthesis [] = [] from rfl, List.append_nil] at happend

theorem beforeParenthesis_append_of_mem (h : ')' ∈ text) (more : List Char) :
    beforeParenthesis (text ++ more) = beforeParenthesis text := by
  obtain ⟨before, after, rfl, hbefore⟩ := List.eq_append_cons_of_mem h
  rw [List.append_assoc, beforeParenthesis_append_of_not_mem hbefore, beforeParenthesis_append_of_not_mem hbefore]
  rfl

theorem beforeParenthesis_append_congr (text : List Char) (h : beforeParenthesis more = beforeParenthesis more') :
    beforeParenthesis (text ++ more) = beforeParenthesis (text ++ more') := by
  by_cases hmem : ')' ∈ text
  · rw [beforeParenthesis_append_of_mem hmem, beforeParenthesis_append_of_mem hmem]
  · rw [beforeParenthesis_append_of_not_mem hmem, beforeParenthesis_append_of_not_mem hmem, h]

theorem toList_parameterPart {text : String} (h : ')' ∈ text.toList) :
    (MethodType.parameterPart text).toList = beforeParenthesis text.toList ++ [')'] := by
  unfold MethodType.parameterPart
  split
  · rename_i hnil
    have hall := List.dropWhile_eq_nil_iff.1 hnil _ h
    cases hall
  · exact String.toList_ofList

end

/-! ### Types of parameters -/

namespace FieldType

variable {t p q : FieldType}

/-- A field type is known from any text that it begins. -/
theorem chars_cancel (hp : p.IsValid) (hq : q.IsValid) {x y : List Char} (h : p.chars ++ x = q.chars ++ y) :
    p = q ∧ x = y := by
  have hread := readAfter_chars hp 0 x
  rw [h, readAfter_chars hq 0 y, Nat.zero_add, Nat.zero_add] at hread
  obtain ⟨hpq, hxy⟩ := Prod.mk.inj (Except.ok.inj hread)
  exact ⟨hpq.symm, hxy.symm⟩

theorem base_eq_of_mem (h : t.IsValid) {c : Char} (hc : c ∈ t.className.toList) : t.base = .reference := by
  obtain ⟨dimension, base, className⟩ := t
  cases base with
  | reference => rfl
  | other => exact h.elim
  | _ =>
    cases (h : className = "")
    cases hc

/-- Only a class name can hold a parenthesis. -/
theorem parenthesis_mem_chars (h : t.IsValid) : ')' ∈ t.chars ↔ ')' ∈ t.className.toList := by
  obtain ⟨dimension, base, className⟩ := t
  cases base with
  | reference => simp [chars, BaseType.letter]
  | other => exact h.elim
  | _ =>
    cases (h : className = "")
    simp [chars, BaseType.letter]

/-- A class name that is cut off before a parenthesis and goes on otherwise. -/
def cutOff (t : FieldType) : FieldType :=
  { t with className := String.ofList (beforeParenthesis t.className.toList ++ ['x']) }

theorem cutOff_spec (h : t.IsValid) (hmem : ')' ∈ t.className.toList) :
    t.cutOff.IsValid ∧ t.cutOff.chars = beforeParenthesis t.chars ++ ['x', ';'] := by
  obtain ⟨dimension, base, className⟩ := t
  obtain rfl : base = .reference := base_eq_of_mem h hmem
  obtain ⟨-, hplain⟩ := h
  refine ⟨⟨by simp [cutOff], ?_⟩, ?_⟩
  · rw [cutOff, String.toList_ofList, List.mem_append, not_or]
    exact ⟨fun hsemicolon => hplain ((List.takeWhile_sublist _).subset hsemicolon), by decide⟩
  · have hchars : chars ⟨dimension, .reference, className⟩ =
        (List.replicate dimension '[' ++ ['L']) ++ (className.toList ++ [';']) := by
      simp [chars, BaseType.letter]
    have hfront : ')' ∉ List.replicate dimension '[' ++ ['L'] := by simp
    rw [hchars, beforeParenthesis_append_of_not_mem hfront, beforeParenthesis_append_of_mem hmem]
    simp [cutOff, chars, BaseType.letter]

end FieldType

/-- Two lists of parameters are alike up to two class names, and these up to a closing parenthesis. -/
def Blurred (ps qs : List FieldType) : Prop :=
  ∃ common p q rest rest', ps = common ++ p :: rest ∧ qs = common ++ q :: rest' ∧ p.dimension = q.dimension ∧
    ')' ∈ p.className.toList ∧ ')' ∈ q.className.toList ∧
    beforeParenthesis p.className.toList = beforeParenthesis q.className.toList

theorem Blurred.cons {ps qs : List FieldType} (p : FieldType) (h : Blurred ps qs) : Blurred (p :: ps) (p :: qs) := by
  obtain ⟨common, q, q', rest, rest', rfl, rfl, h⟩ := h
  exact ⟨p :: common, q, q', rest, rest', rfl, rfl, h⟩

section
variable {ps qs : List FieldType}

open FieldType

theorem beforeParenthesis_cons_ne_nil {p : FieldType} (h : p.IsValid) (x : List Char) :
    beforeParenthesis (p.chars ++ x) ≠ [] := by
  obtain ⟨c, rest, hchars, hc⟩ := head_chars h
  have hne : c ≠ ')' := by
    rintro rfl
    exact absurd hc (by decide)
  rw [hchars, List.cons_append, beforeParenthesis, List.takeWhile_cons_of_pos (by simpa using hne)]
  exact List.cons_ne_nil _ _

/-- A type whose class name holds a parenthesis is not written like one whose class name holds none. -/
theorem not_beforeParenthesis_chars {p q : FieldType} (hp : p.IsValid) (hq : q.IsValid)
    (hmem : ')' ∈ q.className.toList) (x : List Char) : p.chars ++ x ≠ beforeParenthesis q.chars := by
  intro h
  obtain ⟨hvalid, hchars⟩ := cutOff_spec hq hmem
  rw [← h, List.append_assoc, ← List.append_nil q.cutOff.chars] at hchars
  have hnil := (chars_cancel hvalid hp hchars).2
  simp at hnil

-- A descriptor that is cut off is no descriptor; `cutOff` completes it, so that `chars_cancel` applies.
theorem blurred_of_chars {p q : FieldType} (hp : p.IsValid) (hq : q.IsValid) (hpmem : ')' ∈ p.className.toList)
    (hqmem : ')' ∈ q.className.toList) (h : beforeParenthesis p.chars = beforeParenthesis q.chars)
    (ps qs : List FieldType) :
    Blurred (p :: ps) (q :: qs) := by
  obtain ⟨hvalid, hchars⟩ := cutOff_spec hp hpmem
  obtain ⟨hvalid', hchars'⟩ := cutOff_spec hq hqmem
  rw [h, ← hchars', ← List.append_nil p.cutOff.chars, ← List.append_nil q.cutOff.chars] at hchars
  have heq := (chars_cancel hvalid hvalid' hchars).1
  obtain ⟨hdimension, -, hname⟩ := FieldType.mk.inj heq
  exact ⟨[], p, q, ps, qs, rfl, rfl, hdimension, hpmem, hqmem, List.append_cancel_right (String.ofList_inj.1 hname)⟩

theorem eq_or_blurred (hp : ∀ p ∈ ps, p.IsValid) (hq : ∀ q ∈ qs, q.IsValid)
    (h : beforeParenthesis (ps.flatMap chars) = beforeParenthesis (qs.flatMap chars)) : ps = qs ∨ Blurred ps qs := by
  -- along both lists, up to the first class name with a parenthesis
  induction ps generalizing qs with
  | nil =>
    cases qs with
    | nil => exact .inl rfl
    | cons q qs => exact absurd h.symm (beforeParenthesis_cons_ne_nil (hq q (List.mem_cons_self ..)) _)
  | cons p ps ih =>
    obtain ⟨hp, hps⟩ := List.forall_mem_cons.1 hp
    cases qs with
    | nil => exact absurd h (beforeParenthesis_cons_ne_nil hp _)
    | cons q qs =>
      obtain ⟨hq, hqs⟩ := List.forall_mem_cons.1 hq
      rw [List.flatMap_cons, List.flatMap_cons] at h
      by_cases hpmem : ')' ∈ p.className.toList <;> by_cases hqmem : ')' ∈ q.className.toList
      · rw [beforeParenthesis_append_of_mem ((parenthesis_mem_chars hp).2 hpmem),
          beforeParenthesis_append_of_mem ((parenthesis_mem_chars hq).2 hqmem)] at h
        exact .inr (blurred_of_chars hp hq hpmem hqmem h ps qs)
      · rw [beforeParenthesis_append_of_mem ((parenthesis_mem_chars hp).2 hpmem),
          beforeParenthesis_append_of_not_mem (mt (parenthesis_mem_chars hq).1 hqmem)] at h
        exact absurd h.symm (not_beforeParenthesis_chars hq hp hpmem _)
      · rw [beforeParenthesis_append_of_not_mem (mt (parenthesis_mem_chars hp).1 hpmem),
          beforeParenthesis_append_of_mem ((parenthesis_mem_chars hq).2 hqmem)] at h
        exact absurd h (not_beforeParenthesis_chars hp hq hqmem _)
      · rw [beforeParenthesis_append_of_not_mem (mt (parenthesis_mem_chars hp).1 hpmem),
          beforeParenthesis_append_of_not_mem (mt (parenthesis_mem_chars hq).1 hqmem)] at h
        obtain ⟨rfl, hrest⟩ := chars_cancel hp hq h
        exact (ih hps hqs hrest).imp (congrArg (p :: ·)) (Blurred.cons p)

theorem beforeParenthesis_of_blurred (hp : ∀ p ∈ ps, p.IsValid) (hq : ∀ q ∈ qs, q.IsValid) (h : Blurred ps qs) :
    beforeParenthesis (ps.flatMap chars) = beforeParenthesis (qs.flatMap chars) := by
  obtain ⟨common, p, q, rest, rest', rfl, rfl, hdimension, hpmem, hqmem, hname⟩ := h
  have hp := hp p (by simp)
  have hq := hq q (by simp)
  simp only [List.flatMap_append, List.flatMap_cons]
  refine beforeParenthesis_append_congr _ ?_
  rw [beforeParenthesis_append_of_mem ((parenthesis_mem_chars hp).2 hpmem),
    beforeParenthesis_append_of_mem ((parenthesis_mem_chars hq).2 hqmem)]
  have hcut : p.cutOff = q.cutOff := by
    have hbase := (base_eq_of_mem hp hpmem).trans (base_eq_of_mem hq hqmem).symm
    simp only [cutOff, hdimension, hbase, hname]
  have hchars := (cutOff_spec hp hpmem).2
  rw [hcut, (cutOff_spec hq hqmem).2] at hchars
  exact (List.append_cancel_right hchars).symm

end

/-! ### Keys -/

/-- What a key shows of a method type. -/
theorem toList_parameterPart_of_parse {text : String} {t : MethodType} (h : MethodType.parse text = .ok t) :
    (MethodType.parameterPart text).toList =
      '(' :: (beforeParenthesis (t.parameters.flatMap FieldType.chars) ++ [')']) := by
  obtain ⟨-, rfl⟩ := MethodType.parse_eq_ok_iff.1 h
  rw [toList_parameterPart] <;> rw [MethodType.toList_toText]
  · have hfront : ')' ∉ ['('] := by decide
    have hparameters : beforeParenthesis (t.parameters.flatMap FieldType.chars ++
        ')' :: MethodType.resultChars t.result) = beforeParenthesis (t.parameters.flatMap FieldType.chars) := by
      by_cases hmem : ')' ∈ t.parameters.flatMap FieldType.chars
      · exact beforeParenthesis_append_of_mem hmem _
      · rw [beforeParenthesis_append_of_not_mem hmem, beforeParenthesis_eq_self_iff.2 hmem]
        exact List.append_nil _
    rw [List.cons_append, ← List.singleton_append, beforeParenthesis_append_of_not_mem hfront, hparameters]
    rfl
  · simp

theorem parameterPart_eq_iff {text text' : String} {t t' : MethodType} (h : MethodType.parse text = .ok t)
    (h' : MethodType.parse text' = .ok t') : MethodType.parameterPart text = MethodType.parameterPart text' ↔
      t.parameters = t'.parameters ∨ Blurred t.parameters t'.parameters := by
  have hvalid := (MethodType.parse_eq_ok_iff.1 h).1.1
  have hvalid' := (MethodType.parse_eq_ok_iff.1 h').1.1
  rw [← String.toList_inj, toList_parameterPart_of_parse h, toList_parameterPart_of_parse h', List.cons.injEq,
    List.append_cancel_right_eq]
  refine ⟨fun heq => eq_or_blurred hvalid hvalid' heq.2, fun hor => ⟨rfl, ?_⟩⟩
  rcases hor with heq | hblurred
  · rw [heq]
  · exact beforeParenthesis_of_blurred hvalid hvalid' hblurred

theorem parameterPart_eq_parameters_iff {text : String} {t : MethodType} (h : MethodType.parse text = .ok t) :
    MethodType.parameterPart text = "(" ++ String.join (t.parameters.map FieldType.toText) ++ ")" ↔
      ∀ p ∈ t.parameters, ')' ∉ p.className.toList := by
  have hvalid := (MethodType.parse_eq_ok_iff.1 h).1.1
  have hwritten : ("(" ++ String.join (t.parameters.map FieldType.toText) ++ ")").toList =
      '(' :: (t.parameters.flatMap FieldType.chars ++ [')']) := by
    simp [String.toList_join, List.flatMap_map, FieldType.toText]
  rw [← String.toList_inj, toList_parameterPart_of_parse h, hwritten, List.cons.injEq, List.append_cancel_right_eq,
    beforeParenthesis_eq_self_iff, List.mem_flatMap]
  constructor
  · rintro ⟨-, hnone⟩ p hp hmem
    exact hnone ⟨p, hp, (FieldType.parenthesis_mem_chars (hvalid p hp)).2 hmem⟩
  · rintro hall
    refine ⟨rfl, ?_⟩
    rintro ⟨p, hp, hmem⟩
    exact hall p hp ((FieldType.parenthesis_mem_chars (hvalid p hp)).1 hmem)

/-- A name without an opening parenthesis is known from a key. -/
theorem append_parenthesis_inj {a b x y : List Char} (ha : '(' ∉ a) (hb : '(' ∉ b)
    (h : a ++ '(' :: x = b ++ '(' :: y) : a = b ∧ x = y := by
  have hsplit {a b x y : List Char} (hb : '(' ∉ b) (h : a ++ '(' :: x = b ++ '(' :: y) (hle : a.length ≤ b.length) :
      a = b := by
    obtain ⟨middle, rfl⟩ := List.prefix_of_prefix_length_le ⟨_, h⟩ (List.prefix_append b ('(' :: y)) hle
    cases middle with
    | nil => exact (List.append_nil a).symm
    | cons c middle =>
      rw [List.append_assoc] at h
      obtain ⟨rfl, -⟩ := List.cons.inj (List.append_cancel_left h)
      exact absurd (List.mem_append_right a (List.mem_cons_self ..)) hb
  obtain rfl : a = b := by
    rcases Nat.le_total a.length b.length with hle | hle
    · exact hsplit hb h hle
    · exact (hsplit ha h.symm hle).symm
  exact ⟨rfl, (List.cons.inj (List.append_cancel_left h)).2⟩

theorem slotKey_eq_iff {text text' : String} {t t' : MethodType} (h : MethodType.parse text = .ok t)
    (h' : MethodType.parse text' = .ok t') {name name' : String} (hname : '(' ∉ name.toList)
    (hname' : '(' ∉ name'.toList) : slotKey name text = slotKey name' text' ↔
      name = name' ∧ MethodType.parameterPart text = MethodType.parameterPart text' := by
  refine ⟨fun heq => ?_, fun heq => by rw [slotKey, slotKey, heq.1, heq.2]⟩
  rw [slotKey, slotKey, ← String.toList_inj, String.toList_append, String.toList_append,
    toList_parameterPart_of_parse h, toList_parameterPart_of_parse h'] at heq
  obtain ⟨hnames, hrest⟩ := append_parenthesis_inj hname hname' heq
  refine ⟨String.toList_inj.1 hnames, String.toList_inj.1 ?_⟩
  rw [toList_parameterPart_of_parse h, toList_parameterPart_of_parse h', hrest]

/-- How far the key of a slot shows the parameters of a method. The parameter part of a descriptor is its parameters in
parentheses exactly if no class name among them holds a closing one. Two descriptors share it exactly if their
parameters are equal or alike up to a closing parenthesis in a class name, whatever their results are. And methods whose
names hold no opening parenthesis share a key exactly if they have the same name and share the parameter part. -/
theorem slotKey_shows_parameters {text text' : String} {t t' : MethodType} (h : MethodType.parse text = .ok t)
    (h' : MethodType.parse text' = .ok t') :
    (MethodType.parameterPart text = "(" ++ String.join (t.parameters.map FieldType.toText) ++ ")" ↔
      ∀ p ∈ t.parameters, ')' ∉ p.className.toList) ∧
    (MethodType.parameterPart text = MethodType.parameterPart text' ↔
      t.parameters = t'.parameters ∨ Blurred t.parameters t'.parameters) ∧
    ∀ name name' : String, '(' ∉ name.toList → '(' ∉ name'.toList →
      (slotKey name text = slotKey name' text' ↔
        name = name' ∧ (t.parameters = t'.parameters ∨ Blurred t.parameters t'.parameters)) := by
  refine ⟨parameterPart_eq_parameters_iff h, parameterPart_eq_iff h h', fun name name' hname hname' => ?_⟩
  rw [slotKey_eq_iff h h' hname hname', parameterPart_eq_iff h h']

/-- The result takes no part in the key, and the class of a parameter does. -/
theorem key_of_find : slotKey "find" "(I[La/B;)V" = slotKey "find" "(I[La/B;)La/B;" ∧
    MethodType.parameterPart "(I[La/B;)V" = "(I[La/B;)" ∧
      slotKey "find" "(I[La/B;)V" ≠ slotKey "find" "(I[La/C;)V" := by
  have hvoid : MethodType.parse "(I[La/B;)V" = .ok ⟨[⟨0, .int, ""⟩, ⟨1, .reference, "a/B"⟩], none⟩ := by decide +kernel
  have hresult : MethodType.parse "(I[La/B;)La/B;" =
      .ok ⟨[⟨0, .int, ""⟩, ⟨1, .reference, "a/B"⟩], some ⟨0, .reference, "a/B"⟩⟩ := by decide +kernel
  have hother : MethodType.parse "(I[La/C;)V" = .ok ⟨[⟨0, .int, ""⟩, ⟨1, .reference, "a/C"⟩], none⟩ := by decide +kernel
  obtain ⟨hpart, -, hkey⟩ := slotKey_shows_parameters hvoid hresult
  obtain ⟨-, -, hkey'⟩ := slotKey_shows_parameters hvoid hother
  refine ⟨(hkey _ _ (by decide) (by decide)).2 ⟨rfl, .inl rfl⟩, hpart.2 (by decide), fun heq => ?_⟩
  obtain ⟨-, heq | ⟨_, p, _, rest, _, hparameters, -, -, hmem, -⟩⟩ := (hkey' _ _ (by decide) (by decide)).1 heq
  · exact absurd heq (by decide)
  · have hall : ∀ p ∈ [(⟨0, .int, ""⟩ : FieldType), ⟨1, .reference, "a/B"⟩], ')' ∉ p.className.toList := by decide
    refine hall p ?_ hmem
    rw [show [_, _] = _ from hparameters]
    exact List.mem_append_right _ (List.mem_cons_self ..)

/-- With a parenthesis in a class name, methods with different parameters share a slot. -/
theorem parenthesis_merges_slots :
    (∃ t t', MethodType.parse "(La)b;)V" = .ok t ∧ MethodType.parse "(La)c;)V" = .ok t' ∧ t.parameters ≠ t'.parameters ∧
      MethodType.parameterPart "(La)b;)V" ≠ "(" ++ String.join (t.parameters.map FieldType.toText) ++ ")") ∧
    MethodType.parameterPart "(La)b;)V" = "(La)" ∧ slotKey "m" "(La)b;)V" = slotKey "m" "(La)c;)V" := by
  refine ⟨⟨⟨[⟨0, .reference, "a)b"⟩], none⟩, ⟨[⟨0, .reference, "a)c"⟩], none⟩, by decide +kernel, by decide +kernel,
    by decide, ?_⟩, ?_, ?_⟩
  · decide +kernel
  · decide +kernel
  · decide +kernel

end JvmAot
