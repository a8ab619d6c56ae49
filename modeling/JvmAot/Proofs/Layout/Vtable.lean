import JvmAot.Session.ClassInfo
import Mathlib.Data.List.Forall2

/-! # Slots are taken over

A method that gets a slot is found under its key from then on, and all other keys keep their slots and
methods. For the methods of a class it follows that the last one with a key is found under it
(`find?_allocateMethods`), and that a slot once given keeps its number (`slot?_allocateMethods`). -/

namespace JvmAot

namespace Vtable

variable {α : Type} {v w : Vtable α} {key k : String} {method : α} {i : Nat}

theorem find?_eq_some_iff : v.find? key = some (method, i) ↔
    v.slot? key = some i ∧ v.get? i = some (some method) := by
  simp only [find?, bind, Option.bind_eq_some_iff, pure, Option.some.injEq, Prod.mk.injEq]
  constructor
  · rintro ⟨j, hslot, _, hget, _, rfl, rfl, rfl⟩
    exact ⟨hslot, hget⟩
  · rintro ⟨hslot, hget⟩
    exact ⟨i, hslot, _, hget, _, rfl, rfl, rfl⟩

theorem one_le_of_slot? (h : v.slot? key = some i) : 1 ≤ i := by
  obtain ⟨j, -, rfl⟩ := Option.map_eq_some_iff.1 h
  exact Nat.le_add_left ..

theorem exists_find? (h : v.slot? key = some i) : ∃ method, v.find? key = some (method, i) := by
  obtain ⟨j, hj, rfl⟩ := Option.map_eq_some_iff.1 h
  obtain ⟨hlt, -⟩ := List.findIdx?_eq_some_iff_getElem.1 hj
  exact ⟨v.slots[j].2, find?_eq_some_iff.2 ⟨h, by simp [get?, hlt]⟩⟩

/-- The contents of a vtable have the entry of a method at its slot. -/
theorem getElem?_build {β : Type} (self : β) (entry : α → β) (h : v.find? key = some (method, i)) :
    (v.build self entry)[i]? = some (entry method) := by
  obtain ⟨hslot, hget⟩ := find?_eq_some_iff.1 h
  obtain ⟨j, -, rfl⟩ := Option.map_eq_some_iff.1 hslot
  obtain ⟨slot, hslot, heq⟩ := Option.map_eq_some_iff.1 hget
  cases heq
  rw [build, List.getElem?_cons_succ, List.getElem?_map, hslot]
  rfl

theorem allocate_of_slot? (method : α) (h : v.slot? key = some i) :
    ∃ j, i = j + 1 ∧ j < v.slots.length ∧ (v.slots.map Prod.fst)[j]? = some key ∧
      v.allocate key method = (i, ⟨v.slots.set j (key, method)⟩) := by
  obtain ⟨j, hj, rfl⟩ := Option.map_eq_some_iff.1 h
  obtain ⟨hlt, hkey, -⟩ := List.findIdx?_eq_some_iff_getElem.1 hj
  exact ⟨j, rfl, hlt, by simpa [hlt] using hkey, by simp only [allocate, hj]⟩

theorem allocate_of_slot?_eq_none (h : v.slot? key = none) :
    v.allocate key method = (v.slots.length + 1, ⟨v.slots ++ [(key, method)]⟩) := by
  simp only [allocate, Option.map_eq_none_iff.1 h]

theorem slot?_eq_map (v : Vtable α) (k : String) :
    v.slot? k = ((v.slots.map Prod.fst).findIdx? (· == k)).map (· + 1) := by
  rw [slot?, List.findIdx?_map]
  rfl

/-- Only a key without a slot adds one. -/
theorem keys_allocate (v : Vtable α) (key : String) (method : α) :
    (v.allocate key method).2.slots.map Prod.fst =
      v.slots.map Prod.fst ++ if (v.slot? key).isSome then [] else [key] := by
  cases h : v.slot? key with
  | none => rw [allocate_of_slot?_eq_none h]; simp
  | some i =>
    obtain ⟨j, rfl, hlt, hkey, heq⟩ := allocate_of_slot? method h
    obtain ⟨hj, rfl⟩ := List.getElem?_eq_some_iff.1 hkey
    rw [heq, List.map_set, List.set_getElem_self]
    simp

theorem slot?_allocate_of_ne (hk : k ≠ key) : (v.allocate key method).2.slot? k = v.slot? k := by
  rw [slot?_eq_map, slot?_eq_map, keys_allocate, List.findIdx?_append]
  cases hs : (v.slot? key).isSome <;> simp [hk.symm]

theorem slot?_allocate_self (v : Vtable α) (key : String) (method : α) :
    (v.allocate key method).2.slot? key = some (v.allocate key method).1 := by
  rw [slot?_eq_map, keys_allocate, List.findIdx?_append]
  cases h : v.slot? key with
  | none =>
    rw [allocate_of_slot?_eq_none h]
    rw [slot?_eq_map, Option.map_eq_none_iff] at h
    simp [h]
  | some i =>
    obtain ⟨j, rfl, -, -, heq⟩ := allocate_of_slot? method h
    rw [slot?_eq_map] at h
    simpa [heq] using h

theorem allocate_fst_of_slot? (h : v.slot? key = some i) : (v.allocate key method).1 = i := by
  obtain ⟨j, -, -, -, heq⟩ := allocate_of_slot? method h
  rw [heq]

theorem get?_allocate_self (v : Vtable α) (key : String) (method : α) :
    (v.allocate key method).2.get? (v.allocate key method).1 = some (some method) := by
  cases h : v.slot? key with
  | none => rw [allocate_of_slot?_eq_none h]; simp [get?]
  | some i =>
    obtain ⟨j, rfl, hlt, -, heq⟩ := allocate_of_slot? method h
    rw [heq]
    simp [get?, hlt]

theorem get?_allocate_of_ne (hk : k ≠ key) (h : v.slot? k = some i) :
    (v.allocate key method).2.get? i = v.get? i := by
  obtain ⟨j, rfl, hlt, hkey, -⟩ := allocate_of_slot? method h
  cases hself : v.slot? key with
  | none => rw [allocate_of_slot?_eq_none hself]; simp [get?, List.getElem?_append_left hlt]
  | some i =>
    obtain ⟨j', rfl, -, hkey', heq⟩ := allocate_of_slot? method hself
    have hne : j' ≠ j := by
      rintro rfl
      exact hk (Option.some.inj (hkey.symm.trans hkey'))
    rw [heq]
    simp [get?, List.getElem?_set_ne hne]

theorem find?_allocate_self (v : Vtable α) (key : String) (method : α) :
    (v.allocate key method).2.find? key = some (method, (v.allocate key method).1) :=
  find?_eq_some_iff.2 ⟨slot?_allocate_self .., get?_allocate_self ..⟩

theorem find?_allocate_of_ne (v : Vtable α) (method : α) (hk : k ≠ key) :
    (v.allocate key method).2.find? k = v.find? k := by
  ext ⟨m, i⟩
  simp only [find?_eq_some_iff, slot?_allocate_of_ne hk]
  exact and_congr_right fun h => by rw [get?_allocate_of_ne hk h]

theorem mem_slots_allocate {slot : String × α} (h : slot ∈ (v.allocate key method).2.slots) :
    slot = (key, method) ∨ slot ∈ v.slots := by
  cases hself : v.slot? key with
  | none =>
    rw [allocate_of_slot?_eq_none hself] at h
    simpa [or_comm] using h
  | some i =>
    obtain ⟨j, -, -, -, heq⟩ := allocate_of_slot? method hself
    rw [heq] at h
    exact (List.mem_or_eq_of_mem_set h).symm

end Vtable

/-! ### The methods of a class -/

/-- A method is as `owner` declares it. -/
structure MethodInfo.Declared (owner : String) (d : MethodDecl) (m : MethodInfo) : Prop where
  owner : m.owner = owner
  decl : m.decl = d
  type : MethodType.parse d.descriptor = .ok m.type

/-- The key of the slot that a method fills. -/
def MethodInfo.key (m : MethodInfo) : String :=
  slotKey m.decl.name m.decl.descriptor

/-- Whether a method is dispatched through the slot of a key. -/
def MethodInfo.fills (m : MethodInfo) (key : String) : Bool :=
  m.decl.isVirtual && m.key == key

/-- The last of some methods that fill the slot of a key. -/
def lastFilling (key : String) (methods : List MethodInfo) : Option MethodInfo :=
  (methods.filter (·.fills key)).getLast?

section
variable {owner key : String} {index i : Nat} {decls : List MethodDecl} {methods : List MethodInfo}
  {m : MethodInfo} {v v' : Vtable DeclaredMethod}

theorem lastFilling_cons : lastFilling key (m :: methods) =
    (lastFilling key methods).or (if m.fills key then some m else none) := by
  by_cases h : m.fills key
  · simp only [lastFilling, List.filter_cons, h, if_true, List.getLast?_cons]
    cases (methods.filter (·.fills key)).getLast? <;> rfl
  · simp [lastFilling, h]

/-- The first of the methods takes its slot, if it is virtual, and the others follow. -/
theorem allocateMethods_cons_eq_ok {d : MethodDecl}
    (h : allocateMethods owner index (d :: decls) v = .ok (methods, v')) :
    ∃ m rest v₁, methods = m :: rest ∧ m.Declared owner d ∧
      allocateMethods owner (index + 1) decls v₁ = .ok (rest, v') ∧
      ((m.decl.isVirtual = true ∧ ∃ slot, m.slot = some slot ∧
          v.allocate m.key m.toDeclaredMethod = (slot, v₁)) ∨
        (m.decl.isVirtual = false ∧ m.slot = none ∧ v₁ = v)) := by
  simp only [allocateMethods] at h
  split at h
  · cases h
  rename_i type htype
  split at h
  case isTrue hvirtual =>
    rcases hrest : allocateMethods owner (index + 1) decls (v.allocate (slotKey d.name d.descriptor)
      { owner, index, decl := d, type }).2 with _ | ⟨rest, _⟩
    · simp [hrest, Except.map] at h
    · simp only [hrest, Except.map, Except.ok.injEq, Prod.mk.injEq] at h
      obtain ⟨rfl, rfl⟩ := h
      exact ⟨_, rest, _, rfl, ⟨rfl, rfl, htype⟩, hrest, .inl ⟨hvirtual, _, rfl, rfl⟩⟩
  case isFalse hvirtual =>
    rcases hrest : allocateMethods owner (index + 1) decls v with _ | ⟨rest, _⟩
    · simp [hrest, Except.map] at h
    · simp only [hrest, Except.map, Except.ok.injEq, Prod.mk.injEq] at h
      obtain ⟨rfl, rfl⟩ := h
      exact ⟨_, rest, _, rfl, ⟨rfl, rfl, htype⟩, hrest, .inr ⟨by simpa using hvirtual, rfl, rfl⟩⟩

theorem declared_allocateMethods (h : allocateMethods owner index decls v = .ok (methods, v')) :
    List.Forall₂ (MethodInfo.Declared owner) decls methods := by
  induction decls generalizing index methods v with
  | nil => cases h; exact .nil
  | cons d decls ih =>
    obtain ⟨m, rest, v₁, rfl, hm, hrest, -⟩ := allocateMethods_cons_eq_ok h
    exact .cons hm (ih hrest)

/-- A key keeps its slot. -/
theorem slot?_allocateMethods (h : allocateMethods owner index decls v = .ok (methods, v'))
    (hkey : v.slot? key = some i) : v'.slot? key = some i := by
  induction decls generalizing index methods v with
  | nil => cases h; exact hkey
  | cons d decls ih =>
    obtain ⟨m, rest, v₁, rfl, -, hrest, ⟨-, slot, -, htake⟩ | ⟨-, -, rfl⟩⟩ := allocateMethods_cons_eq_ok h
    · refine ih hrest ?_
      rw [show v₁ = (v.allocate m.key m.toDeclaredMethod).2 by rw [htake]]
      by_cases hk : key = m.key
      · subst hk
        rw [Vtable.slot?_allocate_self, Vtable.allocate_fst_of_slot? hkey]
      · rw [Vtable.slot?_allocate_of_ne hk, hkey]
    · exact ih hrest hkey

/-- A virtual method records the slot of its key. -/
theorem slot_eq_of_mem_allocateMethods (h : allocateMethods owner index decls v = .ok (methods, v'))
    (hm : m ∈ methods) (hvirtual : m.decl.isVirtual) : ∃ i, m.slot = some i ∧ v'.slot? m.key = some i := by
  induction decls generalizing index methods v with
  | nil => cases h; cases hm
  | cons d decls ih =>
    obtain ⟨first, rest, v₁, rfl, -, hrest, hfirst⟩ := allocateMethods_cons_eq_ok h
    rcases List.mem_cons.1 hm with rfl | hm
    · rcases hfirst with ⟨-, slot, hslot, htake⟩ | ⟨hnot, -⟩
      · refine ⟨slot, hslot, slot?_allocateMethods hrest ?_⟩
        have := v.slot?_allocate_self m.key m.toDeclaredMethod
        rwa [htake] at this
      · simp [hnot] at hvirtual
    · exact ih hrest hm

/-- The last method that fills the slot of a key is found there, and what was there before if none does. -/
theorem find?_allocateMethods (h : allocateMethods owner index decls v = .ok (methods, v')) (key : String) :
    v'.find? key = match lastFilling key methods with
      | some m => m.slot.map fun slot => (m.toDeclaredMethod, slot)
      | none => v.find? key := by
  induction decls generalizing index methods v with
  | nil => cases h; rfl
  | cons d decls ih =>
    obtain ⟨m, rest, v₁, rfl, -, hrest, hfirst⟩ := allocateMethods_cons_eq_ok h
    rw [lastFilling_cons, ih hrest]
    cases lastFilling key rest with
    | some last => rfl
    | none =>
      rcases hfirst with ⟨hvirtual, slot, hslot, htake⟩ | ⟨hnot, -, rfl⟩
      · by_cases hk : key = m.key
        · subst hk
          have := v.find?_allocate_self m.key m.toDeclaredMethod
          rw [htake] at this
          simpa [MethodInfo.fills, hvirtual, hslot] using this
        · have := v.find?_allocate_of_ne m.toDeclaredMethod hk
          rw [htake] at this
          simpa [MethodInfo.fills, Ne.symm hk] using this
      · simp [MethodInfo.fills, hnot]

/-- The slots hold methods that are declared here, or what they held before. -/
theorem mem_slots_allocateMethods (h : allocateMethods owner index decls v = .ok (methods, v'))
    {slot : String × DeclaredMethod} (hslot : slot ∈ v'.slots) :
    (∃ m ∈ methods, m.decl.isVirtual ∧ slot = (m.key, m.toDeclaredMethod)) ∨ slot ∈ v.slots := by
  induction decls generalizing index methods v with
  | nil => cases h; exact .inr hslot
  | cons d decls ih =>
    obtain ⟨m, rest, v₁, rfl, -, hrest, hfirst⟩ := allocateMethods_cons_eq_ok h
    rcases ih hrest with ⟨m', hm', hslot⟩ | hslot
    · exact .inl ⟨m', List.mem_cons_of_mem _ hm', hslot⟩
    · rcases hfirst with ⟨hvirtual, n, -, htake⟩ | ⟨-, -, rfl⟩
      · rw [show v₁ = (v.allocate m.key m.toDeclaredMethod).2 by rw [htake]] at hslot
        rcases Vtable.mem_slots_allocate hslot with rfl | hslot
        · exact .inl ⟨m, List.mem_cons_self .., hvirtual, rfl⟩
        · exact .inr hslot
      · exact .inr hslot

end

end JvmAot
