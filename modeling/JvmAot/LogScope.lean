import JvmAot.Failure

/-! # Log scopes

The parts of the compiler that can log. A set of scopes is a 64-bit mask, of which five bits have
names. -/

namespace JvmAot

/-- A set of log scopes. -/
structure LogScopes where
  mask : UInt64
  deriving DecidableEq, Repr

namespace LogScopes

/-- The named scopes with their bits, from the lowest bit on. -/
def named : List (String × UInt64) :=
  [("load", 2), ("resolve", 4), ("compile", 8), ("translate", 16), ("objects", 32)]

/-- The empty set. -/
def none : LogScopes := ⟨0⟩

/-- The set of all scopes, named or not. -/
def all : LogScopes := ⟨0xffffffffffffffff⟩

/-- Both sets together. -/
def union (a b : LogScopes) : LogScopes := ⟨a.mask ||| b.mask⟩

/-- Whether the two sets have a scope in common. -/
def isEnabled (scopes group : LogScopes) : Bool :=
  scopes.mask &&& group.mask != 0

/-- The name of a set that is exactly one named scope, and its number otherwise. -/
def name (scopes : LogScopes) : String :=
  match named.find? fun scope => scope.2 == scopes.mask with
  | some (name, _) => name
  | Option.none => "<unknown=" ++ toString scopes.mask ++ ">"

/-- The name of the logger of a scope. -/
def loggerName (scopes : LogScopes) : String :=
  "majai." ++ scopes.name

/-- The single scopes of a set, from the lowest bit on. -/
def singles (scopes : LogScopes) : List LogScopes :=
  ((List.range 64).map fun i => (⟨(1 : UInt64) <<< UInt64.ofNat i⟩ : LogScopes)).filter
    scopes.isEnabled

/-- The set in words. -/
def toText (scopes : LogScopes) : String :=
  if scopes = all then "all" else String.intercalate "|" (scopes.singles.map name)

/-- The scope or group that a word of a list stands for; an empty word stands for none. -/
def ofWord (word : String) : Except Failure LogScopes :=
  if word = "" then .ok none
  else if word = "all" then .ok all
  else match named.find? fun scope => scope.1 == word with
    | some (_, bit) => .ok ⟨bit⟩
    | Option.none => .error (Cause.notALogScope : Failure)

/-- Reads a comma separated list of scopes. -/
def parse (text : String) : Except Failure LogScopes :=
  (text.splitOn ",").foldlM (fun scopes word => scopes.union <$> ofWord word) none

end LogScopes

end JvmAot
