/-! # Integer literals

A literal is an optional sign and digits. `0x`, `0o` and `0b` in front of the digits, in either case,
set the base, and so does a plain `0`, which means base 8. A `_` may stand between two digits and after
the digits that set the base. The value must be a signed 64-bit number. -/

namespace JvmAot.Integer

/-- Why a literal is refused. -/
inductive Refused where
  /-- It is not of the form of a literal. -/
  | malformed
  /-- Its value does not fit. -/
  | outOfRange
  deriving DecidableEq, Repr, Inhabited

/-- The value of a digit in some base up to 36. -/
def digit? (c : Char) : Option Nat :=
  if c.isDigit then some (c.toNat - '0'.toNat)
  else if c.isAlpha then some (c.toLower.toNat - 'a'.toNat + 10)
  else none

/-- The base of an unsigned literal, and its digits. -/
def base : List Char → Nat × List Char
  | '0' :: c :: d :: rest =>
    match c.toLower with
    | 'b' => (2, d :: rest)
    | 'o' => (8, d :: rest)
    | 'x' => (16, d :: rest)
    | _ => (8, c :: d :: rest)
  | '0' :: rest => (8, rest)
  | cs => (10, cs)

/-- The value of some digits after the value `n`, ending at the first one that is no digit or from
which on 64 bits are not enough. -/
def magnitude (base : Nat) : List Char → (n : Nat) → Except Refused Nat
  | [], n => .ok n
  | c :: rest, n =>
    if c = '_' then magnitude base rest n
    else
      match digit? c with
      | none => .error .malformed
      | some d =>
        if base ≤ d then .error .malformed
        else if 0x10000000000000000 ≤ n * base + d then .error .outOfRange
        else magnitude base rest (n * base + d)

/-- Whether each `_` follows a digit and comes before one, given whether a digit was just read and
whether a `_` was. -/
def isSeparated (isHex : Bool) : (afterDigit afterMark : Bool) → List Char → Bool
  | _, afterMark, [] => !afterMark
  | afterDigit, afterMark, c :: rest =>
    if c.isDigit || (isHex && 'a' ≤ c.toLower && c.toLower ≤ 'f') then isSeparated isHex true false rest
    else if c = '_' then afterDigit && isSeparated isHex false true rest
    else !afterMark && isSeparated isHex false false rest

/-- Whether the `_` of an unsigned literal stand where they may. -/
def separatorsOk : List Char → Bool
  | '0' :: c :: rest =>
    if c.toLower = 'b' || c.toLower = 'o' || c.toLower = 'x' then
      isSeparated (c.toLower = 'x') true false rest
    else isSeparated false false false ('0' :: c :: rest)
  | cs => isSeparated false false false cs

/-- The value of an unsigned literal. -/
def unsigned (cs : List Char) : Except Refused Nat :=
  if cs = [] then .error .malformed
  else
    let (base, digits) := base cs
    match magnitude base digits 0 with
    | .error refused => .error refused
    | .ok n => if cs.contains '_' && !separatorsOk cs then .error .malformed else .ok n

/-- The value of a literal. -/
def parse (text : String) : Except Refused Int :=
  let (isNegative, digits) := match text.toList with
    | '-' :: rest => (true, rest)
    | '+' :: rest => (false, rest)
    | cs => (false, cs)
  match unsigned digits with
  | .error refused => .error refused
  | .ok n =>
    if isNegative then if 0x8000000000000000 < n then .error .outOfRange else .ok (-n)
    else if 0x8000000000000000 ≤ n then .error .outOfRange else .ok n

end JvmAot.Integer
