import JvmAot.ClassFile.Basic
import JvmAot.Symbol
import JvmAot.Proofs.Descriptor.Reading
import Mathlib.Data.List.Basic
import Mathlib.Data.Set.Function

/-! # When symbols tell methods apart

Slashes, semicolons and closing parentheses all become underscores, so a symbol may not show where one of its parts
ends. `MethodId.symbol_injOn`: it does if class names and method names are `Separate`, which they are if they hold
no underscores and the like and no class is called like a package of another (`separate_of_isPlain`). -/

namespace JvmAot

namespace Symbol

/-! ### Names -/

/-- A name as part of a symbol, as characters. -/
def chars (name : String) : List Char :=
  name.toList.flatMap mangleChar

theorem toList_mangle (name : String) : (mangle name).toList = chars name :=
  String.toList_ofList

theorem mangle_slashed (name : String) : mangle (ClassName.slashed name) = mangle name := by
  have hchar (c : Char) : mangleChar (if c == '.' then '/' else c) = mangleChar c := by
    by_cases h : c = '.' <;> simp [h, mangleChar]
  simp only [mangle, ClassName.slashed, String.toList_map, List.flatMap_map, hchar]

/-- No name, as part of a symbol and up to the next underscore, is the beginning of another one. -/
def Separate (names : List String) : Prop :=
  ∀ a ∈ names, ∀ b ∈ names, chars a ++ ['_'] <+: chars b ++ ['_'] → a = b

instance (names : List String) : Decidable (Separate names) :=
  inferInstanceAs (Decidable (∀ a ∈ names, ∀ b ∈ names, chars a ++ ['_'] <+: chars b ++ ['_'] → a = b))

/-- A separate name is known from any text that it begins. -/
theorem Separate.cancel {names : List String} (h : Separate names) {a b : String} (ha : a ∈ names) (hb : b ∈ names)
    {x y : List Char} (heq : chars a ++ '_' :: x = chars b ++ '_' :: y) : a = b ∧ x = y := by
  have hpa : chars a ++ ['_'] <+: chars b ++ '_' :: y := ⟨x, by simpa using heq⟩
  have hpb : chars b ++ ['_'] <+: chars b ++ '_' :: y := ⟨y, by simp⟩
  obtain rfl : a = b := by
    rcases List.prefix_or_prefix_of_prefix hpa hpb with hab | hba
    · exact h a ha b hb hab
    · exact (h b hb a ha hba).symm
  exact ⟨rfl, (List.cons.inj (List.append_cancel_left heq)).2⟩

/-- The characters that make a symbol ambiguous, or that no name has. -/
def ambiguous : List Char :=
  ['_', '(', ')', '<', '>', '.', ';', '[']

/-- Whether only slashes of a name become something else in a symbol, and nothing else becomes like them. -/
def IsPlain (name : String) : Prop :=
  ∀ c ∈ name.toList, c ∉ ambiguous

instance (name : String) : Decidable (IsPlain name) :=
  List.decidableBAll (· ∉ ambiguous) name.toList

/-- What a character of a plain name becomes. -/
def underscore (c : Char) : Char :=
  if c = '/' then '_' else c

theorem mangleChar_of_not_mem {c : Char} (h : c ∉ ambiguous) : mangleChar c = [underscore c] := by
  simp only [ambiguous, List.mem_cons, List.not_mem_nil, or_false, not_or] at h
  unfold mangleChar
  split <;> simp_all [underscore]

theorem IsPlain.chars_eq {name : String} (h : IsPlain name) : chars name = name.toList.map underscore := by
  rw [chars, List.map_eq_flatMap]
  exact List.flatMap_congr fun c hc => mangleChar_of_not_mem (h c hc)

theorem IsPlain.underscore_not_mem {name : String} (h : IsPlain name) : '_' ∉ name.toList :=
  fun hmem => h _ hmem (by decide)

theorem underscore_inj {c d : Char} (hc : c ≠ '_') (hd : d ≠ '_') (h : underscore c = underscore d) : c = d := by
  unfold underscore at h
  grind

theorem map_underscore_inj {a b : List Char} (ha : '_' ∉ a) (hb : '_' ∉ b)
    (h : a.map underscore = b.map underscore) : a = b := by
  induction a generalizing b with
  | nil => exact (List.map_eq_nil_iff.1 h.symm).symm
  | cons c a ih =>
    cases b with
    | nil => cases h
    | cons d b =>
      simp only [List.map_cons, List.cons.injEq, List.mem_cons, not_or] at h ha hb
      rw [underscore_inj (Ne.symm ha.1) (Ne.symm hb.1) h.1, ih ha.2 hb.2 h.2]

theorem IsPlain.chars_inj {a b : String} (ha : IsPlain a) (hb : IsPlain b) (h : chars a = chars b) : a = b := by
  rw [ha.chars_eq, hb.chars_eq] at h
  exact String.toList_inj.1 (map_underscore_inj ha.underscore_not_mem hb.underscore_not_mem h)

/-- Plain names are separate if none of them is a package of another one. -/
theorem separate_of_isPlain {names : List String} (hplain : ∀ a ∈ names, IsPlain a)
    (hpackage : ∀ a ∈ names, ∀ b ∈ names, ¬ (a.toList ++ ['/']) <+: b.toList) : Separate names := by
  intro a ha b hb hab
  rcases List.prefix_concat_iff.1 hab with heq | hproper
  · exact (hplain a ha).chars_inj (hplain b hb) (List.append_cancel_right heq)
  · -- The underscore after `a` stands for a slash in `b`.
    obtain ⟨x, hx⟩ := hproper
    rw [(hplain a ha).chars_eq, (hplain b hb).chars_eq, List.append_assoc] at hx
    obtain ⟨b₁, b₂, hb₁₂, hb₁, hb₂⟩ := List.map_eq_append_iff.1 hx.symm
    obtain ⟨c, b₃, rfl, hc, -⟩ := List.map_eq_cons_iff.1 hb₂
    have hnot := (hplain b hb).underscore_not_mem
    rw [hb₁₂] at hnot
    simp only [List.mem_append, List.mem_cons, not_or] at hnot
    have hslash : c = '/' := by
      unfold underscore at hc
      grind
    refine absurd ⟨b₃, ?_⟩ (hpackage a ha b hb)
    rw [hb₁₂, map_underscore_inj hnot.1 (hplain a ha).underscore_not_mem hb₁, hslash]
    simp

/-- Names without underscores are separate if they differ as parts of symbols. -/
theorem separate_of_inj {names : List String} (hnone : ∀ a ∈ names, '_' ∉ chars a)
    (hinj : ∀ a ∈ names, ∀ b ∈ names, chars a = chars b → a = b) : Separate names := by
  intro a ha b hb hab
  rcases List.prefix_concat_iff.1 hab with heq | hproper
  · exact hinj a ha b hb (List.append_cancel_right heq)
  · exact absurd (hproper.subset (by simp)) (hnone b hb)

/-- Whether a method name is that of an initializer, or plain, without slashes and unlike an initializer in a symbol. -/
def IsPlainMethod (name : String) : Prop :=
  name ∈ ["<init>", "<clinit>"] ∨ IsPlain name ∧ '/' ∉ name.toList ∧ name ∉ ["$init$", "$clinit$"]

instance (name : String) : Decidable (IsPlainMethod name) :=
  inferInstanceAs (Decidable (_ ∨ _ ∧ _ ∧ _))

theorem chars_eq_toList {name : String} (hplain : IsPlain name) (hslash : '/' ∉ name.toList) :
    chars name = name.toList := by
  have hsame : ∀ c ∈ name.toList, underscore c = id c := fun c hc => if_neg (by rintro rfl; exact hslash hc)
  rw [hplain.chars_eq, List.map_congr_left hsame, List.map_id]

/-- The names of initializers become those that no plain method has. -/
theorem separate_of_isPlainMethod {names : List String} (h : ∀ a ∈ names, IsPlainMethod a) : Separate names := by
  have hne {a b : String} (ha : a ∈ ["<init>", "<clinit>"])
      (hb : IsPlain b ∧ '/' ∉ b.toList ∧ b ∉ ["$init$", "$clinit$"]) : chars a ≠ chars b := by
    rw [chars_eq_toList hb.1 hb.2.1]
    intro heq
    have hb' : b = String.ofList (chars a) := by rw [heq, String.ofList_toList]
    simp only [List.mem_cons, List.not_mem_nil, or_false] at ha
    refine hb.2.2 (hb' ▸ ?_)
    rcases ha with rfl | rfl <;> decide
  refine separate_of_inj (fun a ha => ?_) fun a ha b hb hab => ?_
  · rcases h a ha with hmem | ⟨hplain, hslash, -⟩
    · simp only [List.mem_cons, List.not_mem_nil, or_false] at hmem
      rcases hmem with rfl | rfl <;> decide
    · rw [chars_eq_toList hplain hslash]
      exact hplain.underscore_not_mem
  · rcases h a ha with hinit | ha <;> rcases h b hb with hinit' | hb
    · simp only [List.mem_cons, List.not_mem_nil, or_false] at hinit hinit'
      rcases hinit with rfl | rfl <;> rcases hinit' with rfl | rfl <;> first | rfl | exact absurd hab (by decide)
    · exact absurd hab (hne hinit hb)
    · exact absurd hab.symm (hne hinit' ha)
    · exact ha.1.chars_inj hb.1 hab

/-! ### Descriptors -/

/-- A field type as part of a symbol. -/
def typeChars (t : FieldType) : List Char :=
  t.chars.flatMap mangleChar

theorem mangleChar_letter {b : BaseType} (h : ∀ letter, b ≠ .other letter) : mangleChar b.letter = [b.letter] := by
  cases b with
  | other letter => exact absurd rfl (h letter)
  | _ => rfl

end Symbol

/-- The class that a field type names. -/
def FieldType.className? (t : FieldType) : Option String :=
  if t.base = .reference then some t.className else none

/-- The classes that a method type names. -/
def MethodType.classNames (t : MethodType) : List String :=
  (t.parameters ++ t.result.toList).filterMap FieldType.className?

namespace FieldType

theorem IsValid.base_ne_other {t : FieldType} (h : t.IsValid) (letter : Char) : t.base ≠ .other letter := by
  intro heq
  simp [IsValid, heq] at h

/-- Two valid types are the same if they have the same dimension, the same letter and name the same class. -/
theorem IsValid.ext {t t' : FieldType} (h : t.IsValid) (h' : t'.IsValid) (hdim : t.dimension = t'.dimension)
    (hbase : t.base = t'.base) (hclass : t.base = .reference → t.className = t'.className) : t = t' := by
  obtain ⟨dimension, base, className⟩ := t
  obtain ⟨dimension', base', className'⟩ := t'
  obtain rfl : dimension = dimension' := hdim
  obtain rfl : base = base' := hbase
  cases base with
  | reference => rw [show className = className' from hclass rfl]
  | other letter => exact absurd rfl (h.base_ne_other letter)
  | _ => rw [show className = "" from h, show className' = "" from h']

end FieldType

theorem BaseType.letter_inj {b b' : BaseType} (h : ∀ letter, b ≠ .other letter) (h' : ∀ letter, b' ≠ .other letter)
    (heq : b.letter = b'.letter) : b = b' := by
  have hof {b : BaseType} (h : ∀ letter, b ≠ .other letter) : ofLetter b.letter = b := by
    cases b with
    | other letter => exact absurd rfl (h letter)
    | _ => rfl
  rw [← hof h, heq, hof h']

namespace Symbol

theorem typeChars_eq {t : FieldType} (h : t.IsValid) : typeChars t = List.replicate t.dimension '$' ++
    t.base.letter :: (t.className?.elim [] fun name => chars name ++ ['_']) := by
  have hdim : (List.replicate t.dimension '[').flatMap mangleChar = List.replicate t.dimension '$' := by
    rw [List.flatMap_replicate]
    exact List.flatten_replicate_singleton
  rw [typeChars, FieldType.chars, List.flatMap_append, hdim, List.flatMap_cons,
    mangleChar_letter h.base_ne_other, FieldType.className?]
  split <;> simp [chars, mangleChar]

theorem replicate_cancel {m n : Nat} {c d : Char} {x y : List Char} (hc : c ≠ '$') (hd : d ≠ '$')
    (h : List.replicate m '$' ++ c :: x = List.replicate n '$' ++ d :: y) : m = n ∧ c = d ∧ x = y := by
  induction m generalizing n with
  | zero =>
    cases n with
    | zero => simpa using h
    | succ n => exact absurd (List.cons.inj h).1 hc
  | succ m ih =>
    cases n with
    | zero => exact absurd (List.cons.inj h).1.symm hd
    | succ n =>
      obtain ⟨rfl, hrest⟩ := ih (n := n) (List.cons.inj h).2
      exact ⟨rfl, hrest⟩

theorem letter_ne {t : FieldType} (h : t.IsValid) {c : Char} (hc : c ∉ ['Z', 'B', 'S', 'C', 'I', 'F', 'J', 'D', 'L']) :
    t.base.letter ≠ c := by
  have := h.base_ne_other
  rintro rfl
  cases hbase : t.base with
  | other letter => exact this letter hbase
  | _ => simp [hbase, BaseType.letter] at hc

/-- A type is known from any text that it begins. -/
theorem typeChars_cancel {names : List String} (hnames : Separate names) {t t' : FieldType} (ht : t.IsValid)
    (ht' : t'.IsValid) (hmem : ∀ a ∈ t.className?, a ∈ names) (hmem' : ∀ a ∈ t'.className?, a ∈ names) {x y : List Char}
    (h : typeChars t ++ x = typeChars t' ++ y) : t = t' ∧ x = y := by
  rw [typeChars_eq ht, typeChars_eq ht', List.append_assoc, List.append_assoc, List.cons_append, List.cons_append] at h
  obtain ⟨hdim, hletter, hrest⟩ := replicate_cancel (letter_ne ht (by decide)) (letter_ne ht' (by decide)) h
  have hbase := BaseType.letter_inj ht.base_ne_other ht'.base_ne_other hletter
  by_cases href : t.base = .reference
  · have hname : t.className? = some t.className := if_pos href
    have hname' : t'.className? = some t'.className := if_pos (hbase ▸ href)
    simp only [hname, hname', Option.elim_some, List.append_assoc, List.singleton_append] at hrest
    obtain ⟨hclass, hrest⟩ := hnames.cancel (hmem _ hname) (hmem' _ hname') hrest
    exact ⟨ht.ext ht' hdim hbase fun _ => hclass, hrest⟩
  · have hname : t.className? = none := if_neg href
    have hname' : t'.className? = none := if_neg (hbase ▸ href)
    simp only [hname, hname', Option.elim_none, List.nil_append] at hrest
    exact ⟨ht.ext ht' hdim hbase fun h => absurd h href, hrest⟩

theorem typeChars_ne_underscore {t : FieldType} (h : t.IsValid) (x y : List Char) : typeChars t ++ x ≠ '_' :: y := by
  rw [typeChars_eq h]
  cases t.dimension with
  | zero => exact fun heq => letter_ne h (by decide) (List.cons.inj heq).1
  | succ n => exact fun heq => absurd (List.cons.inj heq).1 (by decide)

/-- The parameters of a method are known from any text that they begin. -/
theorem parameters_cancel {names : List String} (hnames : Separate names) {ps qs : List FieldType}
    (hp : ∀ t ∈ ps, t.IsValid ∧ ∀ a ∈ t.className?, a ∈ names)
    (hq : ∀ t ∈ qs, t.IsValid ∧ ∀ a ∈ t.className?, a ∈ names)
    {x y : List Char} (h : ps.flatMap typeChars ++ '_' :: x = qs.flatMap typeChars ++ '_' :: y) : ps = qs ∧ x = y := by
  induction ps generalizing qs with
  | nil =>
    cases qs with
    | nil => exact ⟨rfl, (List.cons.inj h).2⟩
    | cons q qs =>
      rw [List.flatMap_cons, List.append_assoc] at h
      exact absurd h.symm (typeChars_ne_underscore (hq q (List.mem_cons_self ..)).1 _ _)
  | cons p ps ih =>
    obtain ⟨⟨hpvalid, hpmem⟩, hps⟩ := List.forall_mem_cons.1 hp
    rw [List.flatMap_cons, List.append_assoc] at h
    cases qs with
    | nil => exact absurd h (typeChars_ne_underscore hpvalid _ _)
    | cons q qs =>
      obtain ⟨⟨hqvalid, hqmem⟩, hqs⟩ := List.forall_mem_cons.1 hq
      rw [List.flatMap_cons, List.append_assoc] at h
      obtain ⟨rfl, hrest⟩ := typeChars_cancel hnames hpvalid hqvalid hpmem hqmem h
      obtain ⟨rfl, hxy⟩ := ih hps hqs hrest
      exact ⟨rfl, hxy⟩

theorem result_inj {names : List String} (hnames : Separate names) {r r' : Option FieldType}
    (hr : ∀ t ∈ r, t.IsValid ∧ ∀ a ∈ t.className?, a ∈ names)
    (hr' : ∀ t ∈ r', t.IsValid ∧ ∀ a ∈ t.className?, a ∈ names)
    (h : (MethodType.resultChars r).flatMap mangleChar = (MethodType.resultChars r').flatMap mangleChar) : r = r' := by
  have hvoid {t : FieldType} (ht : t.IsValid) : typeChars t ≠ ['V'] := by
    rw [typeChars_eq ht]
    cases t.dimension with
    | zero => exact fun heq => letter_ne ht (by decide) (List.cons.inj heq).1
    | succ n => exact fun heq => absurd (List.cons.inj heq).1 (by decide)
  cases r with
  | none =>
    cases r' with
    | none => rfl
    | some t' => exact absurd h.symm (hvoid (hr' t' rfl).1)
  | some t =>
    cases r' with
    | none => exact absurd h (hvoid (hr t rfl).1)
    | some t' =>
      obtain ⟨ht, hmem⟩ := hr t rfl
      obtain ⟨ht', hmem'⟩ := hr' t' rfl
      have h : typeChars t ++ [] = typeChars t' ++ [] := congrArg (· ++ []) h
      rw [(typeChars_cancel hnames ht ht' hmem hmem' h).1]

theorem chars_toText (t : MethodType) : chars t.toText =
    t.parameters.flatMap typeChars ++ '_' :: (MethodType.resultChars t.result).flatMap mangleChar := by
  rw [chars, MethodType.toList_toText, List.flatMap_append, List.flatMap_cons, List.flatMap_cons,
    List.flatMap_assoc]
  rfl

/-- A descriptor is known from its part of a symbol. -/
theorem descriptor_inj {names : List String} (hnames : Separate names) {d d' : String} {t t' : MethodType}
    (hd : MethodType.parse d = .ok t) (hd' : MethodType.parse d' = .ok t') (hmem : t.classNames ⊆ names)
    (hmem' : t'.classNames ⊆ names) (h : chars d = chars d') : d = d' := by
  obtain ⟨rfl, hvalids, hvalid⟩ := MethodType.eq_toText_of_parse hd
  obtain ⟨rfl, hvalids', hvalid'⟩ := MethodType.eq_toText_of_parse hd'
  have hparameter {t : MethodType} (hmem : t.classNames ⊆ names) {p : FieldType} (hp : p ∈ t.parameters) :
      ∀ a ∈ p.className?, a ∈ names := fun a ha =>
    hmem (List.mem_filterMap.2 ⟨p, List.mem_append_left _ hp, ha⟩)
  have hresult {t : MethodType} (hmem : t.classNames ⊆ names) {r : FieldType} (hr : r ∈ t.result) :
      ∀ a ∈ r.className?, a ∈ names := fun a ha =>
    hmem (List.mem_filterMap.2 ⟨r, List.mem_append_right _ (Option.mem_toList.2 hr), ha⟩)
  rw [chars_toText, chars_toText] at h
  obtain ⟨hparameters, hrest⟩ := parameters_cancel hnames (fun p hp => ⟨hvalids p hp, hparameter hmem hp⟩)
    (fun p hp => ⟨hvalids' p hp, hparameter hmem' hp⟩) h
  have hresults := result_inj hnames (fun r hr => ⟨hvalid r hr, hresult hmem hr⟩)
    (fun r hr => ⟨hvalid' r hr, hresult hmem' hr⟩) hrest
  rw [show t = t' from by cases t; cases t'; cases hparameters; cases hresults; rfl]

end Symbol

/-! ### Methods -/

/-- What a symbol is to tell methods apart by. -/
structure MethodId where
  className : String
  name : String
  descriptor : String
  deriving DecidableEq, Repr

namespace MethodId

/-- The symbol of the method. -/
def symbol (m : MethodId) : String :=
  Symbol.ofMethod m.className m.name m.descriptor

/-- The descriptor can be read, and all names are among the given ones. -/
structure Within (classes methods : List String) (m : MethodId) : Prop where
  className : m.className ∈ classes
  name : m.name ∈ methods
  descriptor : ∃ t, MethodType.parse m.descriptor = .ok t ∧ t.classNames ⊆ classes

instance (classes methods : List String) (m : MethodId) : Decidable (m.Within classes methods) :=
  match hd : MethodType.parse m.descriptor with
  | .error _ => isFalse fun h => by
    obtain ⟨t, ht, -⟩ := h.descriptor
    rw [hd] at ht
    cases ht
  | .ok t =>
    decidable_of_iff (m.className ∈ classes ∧ m.name ∈ methods ∧ t.classNames ⊆ classes)
      ⟨fun h => ⟨h.1, h.2.1, t, hd, h.2.2⟩, fun h => ⟨h.className, h.name, by
        obtain ⟨t', ht', hmem⟩ := h.descriptor
        rw [hd] at ht'
        cases ht'
        exact hmem⟩⟩

theorem toList_symbol (m : MethodId) : m.symbol.toList =
    Symbol.chars m.className ++ '_' :: (Symbol.chars m.name ++ '_' :: Symbol.chars m.descriptor) := by
  simp [symbol, Symbol.ofMethod, Symbol.ofClass, Symbol.mangle_slashed, Symbol.toList_mangle]

/-- Separate names make separate symbols. -/
theorem symbol_injOn {classes methods : List String} (hclasses : Symbol.Separate classes)
    (hmethods : Symbol.Separate methods) : Set.InjOn symbol {m | m.Within classes methods} := by
  intro m hm m' hm' heq
  have hchars : m.symbol.toList = m'.symbol.toList := congrArg String.toList heq
  rw [toList_symbol, toList_symbol] at hchars
  obtain ⟨hclass, hrest⟩ := hclasses.cancel hm.className hm'.className hchars
  obtain ⟨hname, hrest⟩ := hmethods.cancel hm.name hm'.name hrest
  obtain ⟨t, ht, hmem⟩ := hm.descriptor
  obtain ⟨t', ht', hmem'⟩ := hm'.descriptor
  have hdescriptor := Symbol.descriptor_inj hclasses ht ht' hmem hmem' hrest
  cases m
  cases m'
  cases hclass
  cases hname
  cases hdescriptor
  rfl

end MethodId

/-! ### Vtables -/

namespace Symbol

theorem toList_ofVtable (name : String) : (ofVtable name).toList = chars name ++ "_vtable".toList := by
  rw [ofVtable, ofClass, mangle_slashed, String.toList_append, toList_mangle]

/-- Classes share a vtable symbol if their names do so as parts of symbols, and not otherwise. -/
theorem ofVtable_inj {a b : String} : ofVtable a = ofVtable b ↔ chars a = chars b := by
  rw [← String.toList_inj, toList_ofVtable, toList_ofVtable, List.append_left_inj]

end Symbol

end JvmAot
