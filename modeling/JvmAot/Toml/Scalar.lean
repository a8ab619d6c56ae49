import JvmAot.Text.Integer

/-! # Numbers, truth values and dates

`Toml.scalar?` reads a value that is no text, array or table. Only whether it is well formed matters. -/

namespace JvmAot.Toml

/-- Whether a character is a digit in base 16. -/
def isHexDigit (c : Char) : Bool :=
  c.isDigit || ('a' ≤ c.toLower && c.toLower ≤ 'f')

/-- Whether each `_` follows a digit, and a digit comes last. -/
def underscoresAfter : (afterDigit : Bool) → List Char → Bool
  | afterDigit, [] => afterDigit
  | afterDigit, c :: rest => (c ≠ '_' || afterDigit) && underscoresAfter (isHexDigit c) rest

/-- Whether each `_` of a part of a number follows a digit, and the part ends in a digit. All digits up
to base 16 count. -/
def underscoresOk (part : List Char) : Bool :=
  underscoresAfter false part

/-- Whether a decimal number starts with a zero that it does not need. -/
def hasLeadingZero : List Char → Bool
  | '0' :: c :: _ => c ≠ 'b' && c ≠ 'o' && c ≠ 'x'
  | '-' :: '0' :: _ :: _ => true
  | '+' :: '0' :: _ :: _ => true
  | _ => false

/-- Whether a text is an integer. -/
def isInteger (token : List Char) : Bool :=
  underscoresOk token && !hasLeadingZero token && (Integer.parse (String.ofList token)).isOk

/-- The number that decimal digits spell. -/
def decimalValue (digits : List Char) : Nat :=
  digits.foldl (fun n c => n * 10 + (c.toNat - '0'.toNat)) 0

/-- The least number that is rounded to infinity in 64 bits. -/
def firstInfinite : Nat := (1 <<< 1024) - (1 <<< 970)

/-- Whether the number that digits spell, times a power of ten, can be written in 64 bits. The length of
the number decides this unless it is close to the limit. -/
def isFinite (digits : List Char) (exponent : Int) : Bool :=
  let digits := digits.dropWhile (· = '0')
  let length : Int := digits.length + exponent
  if digits = [] || length < 300 then true
  else if 310 < length then false
  else if 0 ≤ exponent then decimalValue digits * Nat.pow 10 exponent.toNat < firstInfinite
  else decimalValue digits < firstInfinite * Nat.pow 10 (-exponent).toNat

/-- The size of an exponent. Once it has reached 10000, the digits that are left are passed over. -/
def exponentSize (digits : List Char) : Nat :=
  digits.foldl (fun n c => if n < 10000 then n * 10 + (c.toNat - '0'.toNat) else n) 0

/-- Reads the exponent at the end of a number, if there is one. -/
def exponent? : List Char → Option Int
  | [] => some 0
  | c :: rest =>
    let (isNegative, digits) := match rest with
      | '-' :: ds => (true, ds)
      | '+' :: ds => (false, ds)
      | ds => (false, ds)
    if (c = 'e' || c = 'E') && digits ≠ [] && digits.all Char.isDigit then
      some (if isNegative then -(exponentSize digits : Int) else exponentSize digits)
    else none

/-- Whether a text without `_` is a finite number with a fraction or an exponent. -/
def isDecimal (token : List Char) : Bool :=
  let unsigned := match token with
    | '-' :: rest => rest
    | '+' :: rest => rest
    | rest => rest
  let (whole, rest) := unsigned.span Char.isDigit
  let (fraction, rest) := match rest with
    | '.' :: digits => digits.span Char.isDigit
    | rest => ([], rest)
  match exponent? rest with
  | none => false
  | some e => whole ≠ [] && isFinite (whole ++ fraction) (e - fraction.length)

/-- The parts of a number between the point and the mark of the exponent. -/
def floatParts (token : List Char) : List (List Char) :=
  (token.splitBy fun a b => !isMark a && !isMark b).filter fun part => !part.any isMark
where
  /-- The characters that separate the parts. -/
  isMark (c : Char) : Bool := c = '.' || c = 'e' || c = 'E'

/-- Whether digits follow each point. -/
def pointsOk : List Char → Bool
  | [] => true
  | '.' :: rest => (match rest with | c :: _ => c.isDigit | [] => false) && pointsOk rest
  | _ :: rest => pointsOk rest

/-- Whether a text is a number with a fraction or an exponent. -/
def isFloat (token : List Char) : Bool :=
  let parts := floatParts token
  parts.all underscoresOk && !hasLeadingZero (parts.headD []) && pointsOk token &&
    isDecimal (token.filter (· ≠ '_'))

/-- Reads two digits. -/
def twoDigits : List Char → Option (Nat × List Char)
  | a :: b :: rest => if a.isDigit && b.isDigit then some (decimalValue [a, b], rest) else none
  | _ => none

/-- The number of days of a month. -/
def daysIn (year month : Nat) : Nat :=
  if month = 2 then
    if year % 4 = 0 && (year % 100 ≠ 0 || year % 400 = 0) then 29 else 28
  else if [4, 6, 9, 11].contains month then 30
  else 31

/-- Reads a date such as 1979-05-27. -/
def date? : List Char → Option (List Char)
  | a :: b :: c :: d :: '-' :: rest => do
    let year := [a, b, c, d]
    let (month, rest) ← twoDigits rest
    match rest with
    | '-' :: rest =>
      let (day, rest) ← twoDigits rest
      if year.all Char.isDigit && 1 ≤ month && month ≤ 12 && 1 ≤ day &&
          day ≤ daysIn (decimalValue year) month then some rest else none
    | _ => none
  | _ => none

/-- Reads a time of day such as 07:32 or 07:32:00.25. -/
def time? (cs : List Char) : Option (List Char) := do
  let (hour, rest) ← twoDigits cs
  match rest with
  | ':' :: rest =>
    let (minute, rest) ← twoDigits rest
    if 23 < hour || 59 < minute then none
    else
      match rest with
      | ':' :: rest =>
        let (second, rest) ← twoDigits rest
        if 59 < second then none
        else
          match rest with
          | '.' :: d :: rest => if d.isDigit then some (rest.dropWhile Char.isDigit) else none
          | rest => some rest
      | rest => some rest
  | _ => none

/-- Whether a text is a distance to universal time, or nothing. -/
def isZone : List Char → Bool
  | [] => true
  | ['Z'] => true
  | sign :: rest =>
    match twoDigits rest with
    | some (hour, ':' :: rest) =>
      match twoDigits rest with
      | some (minute, []) => (sign = '+' || sign = '-') && hour ≤ 24 && minute ≤ 60
      | _ => false
    | _ => false

/-- Whether a text is a date, a time of day, or both, with the hours east of Greenwich if it is both. -/
def isDate (token : List Char) : Bool :=
  let cs := (token.reverse.dropWhile (· = ' ')).reverse.map fun c =>
    if c = 'z' then 'Z' else if c = 't' || c = ' ' then 'T' else c
  match date? cs with
  | some [] => true
  | some ('T' :: rest) => (time? rest).any isZone
  | some _ => false
  | none => time? cs == some []

/-- Reads the longest run of characters of a class, which must form a value. -/
def token? (isPart : Char → Bool) (isValue : List Char → Bool) (cs : List Char) : Option (List Char) :=
  let (token, rest) := cs.span isPart
  if isValue token then some rest else none

/-- Reads a number after its sign, if it has one. -/
def number? (sign digits : List Char) : Option (List Char) :=
  let (whole, rest) := digits.span fun c => c.isDigit || c = '_'
  match rest with
  | '.' :: _ | 'e' :: _ | 'E' :: _ =>
    let (fraction, rest) := rest.span fun c => c.isDigit || "_.+-eE".contains c
    if isFloat (sign ++ whole ++ fraction) then some rest else none
  | rest => if isInteger (sign ++ whole) then some rest else none

/-- Reads a number in a base that is not ten. -/
def basedNumber? (isPart : Char → Bool) (cs digits : List Char) : Option (List Char) :=
  let (token, rest) := digits.span fun c => isPart c || c = '_'
  if (digits.head?).any isPart && isInteger (cs.take 2 ++ token) then some rest else none

/-- Reads a number, a truth value or a date. -/
def scalar? (cs : List Char) : Option (List Char) :=
  match cs with
  | 't' :: 'r' :: 'u' :: 'e' :: rest => some rest
  | 'f' :: 'a' :: 'l' :: 's' :: 'e' :: rest => some rest
  | 'i' :: 'n' :: 'f' :: rest => some rest
  | 'n' :: 'a' :: 'n' :: rest => some rest
  | '0' :: 'x' :: digits =>
    basedNumber? isHexDigit cs digits
  | '0' :: 'o' :: digits => basedNumber? (fun c => '0' ≤ c && c ≤ '7') cs digits
  | '0' :: 'b' :: digits => basedNumber? (fun c => c = '0' || c = '1') cs digits
  | sign :: rest =>
    if sign = '+' || sign = '-' then
      match rest with
      | 'i' :: 'n' :: 'f' :: rest => some rest
      | 'n' :: 'a' :: 'n' :: rest => some rest
      | c :: _ => if c.isDigit then number? [sign] rest else none
      | [] => none
    else if sign.isDigit then
      match cs.dropWhile Char.isDigit with
      | '-' :: _ | ':' :: _ => token? (fun c => c.isDigit || "-:Tt .Zz+".contains c) isDate cs
      | _ => number? [] cs
    else none
  | [] => none

end JvmAot.Toml
