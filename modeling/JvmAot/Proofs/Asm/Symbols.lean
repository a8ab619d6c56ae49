import JvmAot.Asm.Line

/-! # What a text defines and what it refers to

A text defines the symbols of its label lines and of its equates. It refers to the symbols among the operands of
jumps, calls and address loads, among its data words and behind its equates; an item of data that is a number is
no symbol. -/

namespace JvmAot

/-- Whether the last operand of an instruction is a symbol. -/
def Mnemonic.isSymbolic : Mnemonic → Bool
  | la | call | j | beq | bne | blt | bge | bgt | ble => true
  | _ => false

/-- The symbol that an instruction refers to. -/
def Instr.symbol? (i : Instr) : Option String :=
  if i.mnemonic.isSymbolic then i.operands.getLast? else none

/-! ### Numbers among the items of data -/

/-- Whether some characters are the digits of a number. -/
def areDigits (text : List Char) : Bool :=
  !text.isEmpty && text.all Char.isDigit

/-- Whether an item of data is a number. -/
def isNumeral (item : String) : Bool :=
  areDigits item.toList || item.toList.head? == some '-' && areDigits item.toList.tail

theorem areDigits_toString (n : Nat) : areDigits (toString n).toList := by
  rw [Nat.toString_eq_ofList_toDigits, String.toList_ofList, areDigits, Bool.and_eq_true, List.all_eq_true]
  exact ⟨by simp [Nat.toDigits_ne_nil], fun c hc => Nat.isDigit_of_mem_toDigits (by decide) (by decide) hc⟩

theorem isNumeral_toString (n : Int) : isNumeral (toString n) := by
  cases n with
  | ofNat n => exact Bool.or_eq_true .. ▸ .inl (areDigits_toString n)
  | negSucc n =>
    have htext : (toString (Int.negSucc n)).toList = '-' :: (toString (n + 1)).toList := by
      rw [show toString (Int.negSucc n) = "-" ++ toString (n + 1) from rfl, String.toList_append]
      rfl
    rw [isNumeral, htext, List.head?_cons, List.tail_cons, areDigits_toString]
    simp

/-! ### Lines -/

namespace Line

/-- The symbol that a line defines. -/
def definition? : Line → Option String
  | label name => some name
  | equate symbol _ => some symbol
  | _ => none

/-- The symbols that a line refers to. -/
def mentions : Line → List String
  | instr i => i.symbol?.toList
  | directive ".word" items => items.filter (!isNumeral ·)
  | equate _ value => [value]
  | _ => []

/-- Numbers refer to nothing. -/
theorem mentions_directive_of_isNumeral {name : String} {items : List String} (h : ∀ item ∈ items, isNumeral item) :
    (directive name items).mentions = [] := by
  by_cases hname : name = ".word"
  · subst hname
    simpa [mentions] using h
  · simp [mentions, hname]

end Line

/-- The symbols that a text defines, in order. -/
def definitions (lines : List Line) : List String :=
  lines.filterMap Line.definition?

/-- The symbols that a text refers to, in order. -/
def mentions (lines : List Line) : List String :=
  lines.flatMap Line.mentions

@[simp] theorem definitions_nil : definitions [] = [] := rfl

@[simp] theorem definitions_append (lines more : List Line) :
    definitions (lines ++ more) = definitions lines ++ definitions more :=
  List.filterMap_append

@[simp] theorem definitions_cons (line : Line) (lines : List Line) :
    definitions (line :: lines) = line.definition?.toList ++ definitions lines := by
  cases h : line.definition? <;> simp [definitions, h]

@[simp] theorem mentions_nil : mentions [] = [] := rfl

@[simp] theorem mentions_append (lines more : List Line) :
    mentions (lines ++ more) = mentions lines ++ mentions more :=
  List.flatMap_append

@[simp] theorem mentions_cons (line : Line) (lines : List Line) :
    mentions (line :: lines) = line.mentions ++ mentions lines :=
  List.flatMap_cons

end JvmAot
