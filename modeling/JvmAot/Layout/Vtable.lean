import JvmAot.Descriptor.MethodType

/-! # Vtable slots

Slot 0 of a vtable holds no method. Each further slot belongs to a key, the name of a method followed
by its parameter types. A method takes over the slot of its key if the table has one, which is how a
subclass overrides, and gets a new slot at the end otherwise. -/

namespace JvmAot

/-- The key that methods override each other by. -/
def slotKey (name descriptor : String) : String :=
  name ++ MethodType.parameterPart descriptor

/-- The slots of a class from slot 1 on, as keys and methods. -/
structure Vtable (α : Type) where
  slots : List (String × α) := []
  deriving DecidableEq, Repr, Inhabited

namespace Vtable

variable {α β : Type}

/-- The number of slots, including slot 0. -/
def size (v : Vtable α) : Nat :=
  v.slots.length + 1

/-- The slot of a key. -/
def slot? (v : Vtable α) (key : String) : Option Nat :=
  (v.slots.findIdx? (·.1 == key)).map (· + 1)

/-- The method in a slot, with `none` outside the table and `some none` for slot 0. -/
def get? (v : Vtable α) : Nat → Option (Option α)
  | 0 => some none
  | i + 1 => (v.slots[i]?).map fun slot => some slot.2

/-- The method of a key with its slot. -/
def find? (v : Vtable α) (key : String) : Option (α × Nat) := do
  let slot ← v.slot? key
  let method ← (← v.get? slot)
  return (method, slot)

/-- Gives `method` the slot of its key. -/
def allocate (v : Vtable α) (key : String) (method : α) : Nat × Vtable α :=
  match v.slots.findIdx? (·.1 == key) with
  | some i => (i + 1, ⟨v.slots.set i (key, method)⟩)
  | none => (v.slots.length + 1, ⟨v.slots ++ [(key, method)]⟩)

/-- The contents of the table: `self` in slot 0 and the entry of each method after it. -/
def build (v : Vtable α) (self : β) (entry : α → β) : List β :=
  self :: v.slots.map fun slot => entry slot.2

/-- The methods in the slots from slot 1 on. -/
def methods (v : Vtable α) : List α :=
  v.slots.map (·.2)

end Vtable

/-- A vtable in the making, until it is sealed. -/
structure VtableAllocator (α : Type) where
  table : Vtable α := {}
  isSealed : Bool := false
  deriving DecidableEq, Repr, Inhabited

namespace VtableAllocator

variable {α : Type}

/-- An allocator that starts with the slots of a sealed parent. -/
def child (parent : Option (Vtable α)) : Except Failure (VtableAllocator α) :=
  match parent with
  | some table => .ok { table }
  | none => .error (Cause.vtableNotSealed : Failure)

/-- Gives `method` the slot of its key, unless the allocator is sealed. -/
def allocate (a : VtableAllocator α) (key : String) (method : α) :
    Except Failure (Nat × VtableAllocator α) :=
  if a.isSealed then .error (Cause.vtableSealed : Failure)
  else
    let (slot, table) := a.table.allocate key method
    .ok (slot, { a with table })

/-- Ends allocation. -/
def finish (a : VtableAllocator α) : Except Failure (Vtable α × VtableAllocator α) :=
  if a.isSealed then .error (Cause.vtableSealed : Failure)
  else .ok (a.table, { a with isSealed := true })

end VtableAllocator

end JvmAot
