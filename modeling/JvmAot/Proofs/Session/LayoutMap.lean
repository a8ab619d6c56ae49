import JvmAot.Proofs.Heap.Serialization
import JvmAot.Proofs.Session.Closing
import JvmAot.Proofs.Session.CodeStorage
import JvmAot.Proofs.Session.Definitions
import JvmAot.Proofs.Session.Program

/-! # Layout maps describe the text

What a layout map lists can be read off the text of the program: the size of the pool of static fields, the vtable under
each vtable symbol, and the sizes and offsets in the code (`layoutMap_describes_text`). -/

namespace JvmAot

/-! ### Looking up symbols in a text -/

/-- What a line equates the symbol `x` to. -/
def Line.value? (x : String) : Line → Option String
  | equate symbol value => if symbol = x then some value else none
  | _ => none

section
variable {x : String} {lines rest data : List Line}

end

/-! ### The blocks of objects -/

namespace Emission

variable {r : ObjectResolver} {e : Emission} {ids : List ObjectId} {id : ObjectId} {rest : List Line} {i k : Nat}

end Emission

/-! ### The parts of a program -/

/-- All symbols that some lines define stand for something of the given kinds. -/
def Defines (roles : List Symbol.Role) (lines : List Line) : Prop :=
  ∀ x ∈ definitions lines, Symbol.role x ∈ roles

namespace Defines

variable {roles : List Symbol.Role} {lines : List Line} {x : String}

end Defines

namespace Session

variable {loader : Loader} {entry : String} {s s' : Session} {c : ClassInfo} {classes : List ClassInfo}
  {lines code aliases objects : List Line}

/-- The kinds of symbols that code defines. -/
abbrev codeRoles : List Symbol.Role :=
  [.method, .branch, .finish]

/-- Code defines the labels of methods. -/
theorem Texts.defines (h : Texts loader classes s s' lines) (hlinked : s'.classes.Linked loader)
    (hmem : ∀ c ∈ classes, c ∈ s'.classes.latest) : Defines codeRoles lines := by
  intro x hx
  rw [h.definitions_eq] at hx
  obtain ⟨c, hc, hx⟩ := List.mem_flatMap.1 hx
  rw [ClassInfo.ownLabels_eq] at hx
  obtain ⟨p, hp, hx⟩ := List.mem_flatMap.1 hx
  obtain ⟨m, hm, hp⟩ := List.mem_flatMap.1 hp
  obtain ⟨code, -, rfl⟩ := List.mem_map.1 hp
  obtain ⟨-, -, d, -, hdeclared⟩ := hlinked.declared (hmem c hc) hm
  refine MethodId.role_of_mem_labels (t := m.type) ?_ hx
  rw [hdeclared.decl]
  exact hdeclared.type

/-- The text of a value in data. -/
def word (s : Session) (v : Value) : String :=
  (s.labels.get v).1

section
variable {r : ObjectResolver} {e : Emission} {ids : List ObjectId} {v id : ObjectId} {m : Metadata}

/-- A vtable and the metadata of its class refer to each other, so both are written. -/
theorem Filled.written (hfilled : s.Filled c) (heach : s.heap.Each IsStock) (hgrows : s.heap.Grows e.heap)
    (horder : e.labels.order.toList = ids.map .object) (hwritten : ∀ id ∈ ids, ∃ o, e.Written r id o)
    (hids : ∀ v, s.heap.vtable c.metadata = .object v → v ∈ ids) :
    ∃ m v i j nameString, s.heap.metadata? c.metadata = some m ∧ m.vtable = some v ∧
      e.Written r v (.objectArray Heap.vtableType (c.vtableContents c.metadata)) ∧
      e.Written r c.metadata (.metadata { m with nameString }) ∧
      ids[i]? = some v ∧ (e.labels.get (.object v)).1 = LabelTable.label i ∧
      ids[j]? = some c.metadata ∧ (e.labels.get (.object c.metadata)).1 = LabelTable.label j := by
  obtain ⟨m, v, type, hm, hv, hget⟩ := Heap.vtableEntries?_eq_some_iff.1 hfilled
  obtain rfl : type = Heap.vtableType := heach v _ hget
  have hget' := hgrows.kept v _ hget (by simp)
  have hvtable : s.heap.vtable c.metadata = .object v := by simp [Heap.vtable, hm, hv]
  obtain ⟨o, hv'⟩ := hwritten v (hids v hvtable)
  obtain rfl := Option.some.inj (hget'.symm.trans hv'.get?)
  obtain ⟨nameString, hname, -⟩ := hgrows.named c.metadata m (Heap.metadata?_eq_some_iff.1 hm)
  -- The first slot of the vtable refers to the metadata, and the metadata refers back.
  have hself : e.heap.Edge r v c.metadata := .element hget' (List.mem_cons_self ..)
  have hback : e.heap.Edge r c.metadata v := .vtable hname hv
  obtain ⟨o, hm'⟩ := hwritten c.metadata (hv'.mem_of_edge horder hself)
  obtain rfl := Option.some.inj (hname.symm.trans hm'.get?)
  have hobject {id j : ObjectId} {o : Object} (h : e.Written r id o) (hedge : e.heap.Edge r id j) :
      ∃ n, ids[n]? = some j ∧ (e.labels.get (.object j)).1 = LabelTable.label n := by
    rcases h.reference horder (hedge.mem_values h.get? h.failure) with hnull | ⟨x, hsymbol⟩ | ⟨n, k, hk, hn, hlabel⟩
    · cases hnull
    · cases hsymbol
    · cases hk
      exact ⟨n, hn, congrArg Prod.fst hlabel⟩
  obtain ⟨i, hi, hlabel⟩ := hobject hm' hback
  obtain ⟨j, hj, hlabel'⟩ := hobject hv' hself
  exact ⟨m, v, i, j, nameString, hm, hv, hv', hm', hi, hlabel, hj, hlabel'⟩

end

end Session

end JvmAot
