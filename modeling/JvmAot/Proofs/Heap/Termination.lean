import JvmAot.Proofs.Heap.Growth
import Mathlib.Data.List.Perm.Subperm

/-! # Writing the object graph ends

`Emits` is the loop over the labels without a bound. Each metadata gains at most one string of two objects, so all
labels are given to members of a list that is known at the start (`Within`). As no value gets two labels, the bound of
`Emission.all` is never met: it does what the loop does (`emits_iff`). -/

namespace JvmAot

theorem Object.length_held_le (o : Object) : o.held.length ≤ o.valueCount := by
  cases o with
  | metadata m => exact List.length_filterMap_le ..
  | primitiveArray | objectArray | ofClass => simp [held, values, valueCount]

/-- Whether an object is metadata without the string of its name. -/
def Object.isUnnamed : Object → Bool
  | .metadata m => m.nameString.isNone
  | _ => false

/-- The number of metadata without the string of their name. -/
def Heap.unnamed (h : Heap) : Nat :=
  h.objects.toList.countP Object.isUnnamed

theorem Heap.unnamed_set_push {h h' : Heap} {id : ObjectId} {m : Metadata} {name : ObjectId} {units : List UInt16}
    {className field : String} (hget : h.get? id = some (.metadata m)) (hnone : m.nameString = none)
    (hobjects : h'.objects =
      (h.objects.push (.characters units)).push (.ofClass className [(field, .object h.objects.size)])) :
    (h'.set id (.metadata { m with nameString := some name })).unnamed + 1 = h.unnamed := by
  obtain ⟨hlt, hid⟩ := Array.getElem?_eq_some_iff.1 hget
  have hpos : 0 < h.objects.toList.countP Object.isUnnamed := by
    refine List.countP_pos_iff.2 ⟨.metadata m, ?_, by simp [Object.isUnnamed, hnone]⟩
    rw [← hid]
    exact Array.getElem_mem_toList hlt
  have hlt : id < h.objects.toList.length := hlt
  have hunnamed : Object.isUnnamed h.objects.toList[id] = true := by
    rw [Array.getElem_toList, hid]
    simp [Object.isUnnamed, hnone]
  simp only [unnamed, set, hobjects, Array.toList_setIfInBounds, Array.toList_push, List.append_assoc]
  rw [List.set_append_left _ _ hlt, List.countP_append, List.countP_set hlt, if_pos hunnamed]
  have hnamed : Object.isUnnamed (.metadata { m with nameString := some name }) = false := rfl
  have hcharacters : Object.isUnnamed (.characters units) = false := rfl
  have hstring : Object.isUnnamed (.ofClass className [(field, .object h.objects.size)]) = false := rfl
  simpa [hnamed, hcharacters, hstring] using Nat.sub_add_cancel hpos

theorem Heap.vtable_cases (h : Heap) (id : ObjectId) :
    h.vtable id = .missingVtable ∨ ∃ i o, h.get? i = some o ∧ h.vtable id ∈ o.held := by
  unfold vtable metadata?
  split
  · rename_i v hv
    split at hv
    · rename_i m hget
      refine .inr ⟨id, .metadata m, hget, List.mem_filterMap.2 ⟨m.vtable, by simp, ?_⟩⟩
      rw [show m.vtable = some v from hv]
      rfl
    · cases hv
  · exact .inl rfl

namespace Emission

variable {r : ObjectResolver} {e e' : Emission} {v : Value} {next : Nat}

/-- How the writing of objects goes, without a bound on their number. -/
inductive Emits (r : ObjectResolver) : Nat → Emission → Emission × Option Failure → Prop
  | done {next : Nat} {e : Emission} (h : e.labels.order[next]? = none) : Emits r next e (e, none)
  | fails {next : Nat} {e e' : Emission} {v : Value} {failure : Failure} (h : e.labels.order[next]? = some v)
      (hvalue : value r { e with lines := e.lines.push (.label (LabelTable.label next)) } v = (e', some failure)) :
      Emits r next e (e', some failure)
  | next {next : Nat} {e e' : Emission} {v : Value} {result : Emission × Option Failure}
      (h : e.labels.order[next]? = some v)
      (hvalue : value r { e with lines := e.lines.push (.label (LabelTable.label next)) } v = (e', none))
      (hrest : Emits r (next + 1) e' result) : Emits r next e result

theorem Emits.unique {result result' : Emission × Option Failure} (h : Emits r next e result)
    (h' : Emits r next e result') : result = result' := by
  induction h with
  | done hnone =>
    cases h' with
    | done => rfl
    | fails hsome | next hsome =>
      rw [hnone] at hsome
      cases hsome
  | fails hsome hvalue =>
    cases h' with
    | done hnone =>
      rw [hsome] at hnone
      cases hnone
    | fails hsome' hvalue' =>
      rw [hsome] at hsome'
      cases hsome'
      exact hvalue.symm.trans hvalue'
    | next hsome' hvalue' =>
      rw [hsome] at hsome'
      cases hsome'
      rw [hvalue] at hvalue'
      cases hvalue'
  | next hsome hvalue _ ih =>
    cases h' with
    | done hnone =>
      rw [hsome] at hnone
      cases hnone
    | fails hsome' hvalue' =>
      rw [hsome] at hsome'
      cases hsome'
      rw [hvalue] at hvalue'
      cases hvalue'
    | next hsome' hvalue' hrest' =>
      rw [hsome] at hsome'
      cases hsome'
      rw [hvalue] at hvalue'
      cases hvalue'
      exact ih hrest'

/-! ### The values that can get labels -/

/-- All labels, and all that objects hold or will hold, are in `pool`. The heap grows to at most `limit` objects. -/
structure Within (pool : List Value) (limit : Nat) (e : Emission) : Prop where
  proper : e.labels.Proper
  labels : ∀ v ∈ e.labels.order.toList, v ∈ pool
  held : ∀ id o, e.heap.get? id = some o → ∀ v ∈ o.held, v ∈ pool
  fresh : ∀ i, e.heap.objects.size ≤ i → i < limit → .object i ∈ pool
  room : e.heap.objects.size + 2 * e.heap.unnamed ≤ limit
  missing : .missingVtable ∈ pool

namespace Within

variable {pool : List Value} {limit : Nat}

theorem size_le (h : e.Within pool limit) : e.labels.size ≤ pool.length := by
  have hsub : e.labels.order.toList.Subperm pool := h.proper.nodup.subperm fun v hv => h.labels v hv
  simpa [LabelTable.size] using hsub.length_le

theorem lines (h : e.Within pool limit) (lines : Array Line) : { e with lines }.Within pool limit :=
  ⟨h.proper, h.labels, h.held, h.fresh, h.room, h.missing⟩

theorem write (h : e.Within pool limit) {o : Object} (ho : ∀ v ∈ o.held, v ∈ pool) :
    (e.write (e.heap.block r o)).1.Within pool limit := by
  have hproper := DataItem.proper_lines h.proper (e.heap.block r o).items
  refine ⟨hproper, fun v hv => ?_, h.held, h.fresh, h.room, h.missing⟩
  rcases DataItem.mem_lines hv with hold | hnew
  · exact h.labels v hold
  · rcases Heap.mem_block hnew with hnull | hheld | ⟨id, rfl⟩
    · exact absurd hnull (hproper.labelled v hv).1
    · exact ho v hheld
    · rcases e.heap.vtable_cases id with heq | ⟨i, o', hget, hmem⟩
      · rw [heq]
        exact h.missing
      · exact h.held i o' hget _ hmem

/-- A name string takes the place of two objects that were expected. -/
theorem ensureName (hr : r.MakesStrings) (h : e.Within pool limit) {id : ObjectId} {m m' : Metadata}
    (hget : e.heap.get? id = some (.metadata m)) (heq : e.ensureName r id m = .ok (m', e')) :
    e'.Within pool limit := by
  rcases ensureName_cases heq with ⟨-, -, rfl⟩ | ⟨string, heap, hname, hnew, rfl, rfl⟩
  · exact h
  obtain ⟨units, className, field, hobjects, rfl⟩ := hr hnew
  have hlt : id < e.heap.objects.size := (Array.getElem?_eq_some_iff.1 hget).1
  have hunnamed : (heap.set id (.metadata { m with nameString := some (e.heap.objects.size + 1) })).unnamed + 1 =
      e.heap.unnamed := Heap.unnamed_set_push hget hname hobjects
  have hsize : (heap.set id (.metadata { m with nameString := some (e.heap.objects.size + 1) })).objects.size =
      e.heap.objects.size + 2 := by
    simp [Heap.set, hobjects]
  have hroom := h.room
  refine ⟨h.proper, h.labels, fun i o hi v hv => ?_, fun i hi => h.fresh i ?_, ?_, h.missing⟩
  · simp only [Heap.get?_set_push hlt hobjects] at hi
    split at hi
    · cases hi
      -- Metadata holds what it held before, and its name.
      obtain ⟨ref, href, heq⟩ := List.mem_filterMap.1 hv
      by_cases hold : ref ∈ [m.parent, m.vtable, m.element, m.nameString]
      · exact h.held id _ hget v (List.mem_filterMap.2 ⟨ref, hold, heq⟩)
      · obtain rfl : ref = some (e.heap.objects.size + 1) := by
          simp only [List.mem_cons, List.not_mem_nil, or_false] at href hold
          grind
        cases heq
        exact h.fresh _ (Nat.le_succ _) (by omega)
    split at hi
    · cases hi
      rw [List.mem_singleton.1 (show v ∈ [.object e.heap.objects.size] from hv)]
      exact h.fresh _ (Nat.le_refl _) (by omega)
    split at hi
    · cases hi
      cases hv
    · exact h.held i o hi v hv
  · simp only [hsize] at hi
    omega
  · simp only [hsize]
    omega

theorem value (hr : r.MakesStrings) (h : e.Within pool limit) (hv : v ≠ .null)
    (heq : Emission.value r e v = (e', none)) : e'.Within pool limit := by
  unfold Emission.value at heq
  split at heq
  · exact absurd rfl hv
  · split at heq
    · rename_i m hget
      split at heq
      · cases heq
      · rename_i m' e₁ hname
        have h₁ := h.ensureName hr hget hname
        obtain ⟨-, hself⟩ := ensureName_spec hr hget hname
        obtain ⟨rfl, -⟩ := Prod.mk.inj heq
        exact h₁.write (h₁.held _ _ hself)
    · rename_i hget
      obtain ⟨rfl, -⟩ := Prod.mk.inj heq
      exact h.write (h.held _ _ hget)
    · cases heq
  · cases heq
  · cases heq

/-- With more fuel than there are values, the loop comes to its end. -/
theorem emits_run (hr : r.MakesStrings) {fuel : Nat} (h : e.Within pool limit) (hnext : next ≤ e.labels.size)
    (hfuel : pool.length < fuel + next) : Emits r next e (run r fuel next e) := by
  induction fuel generalizing next e with
  | zero =>
    have hsize := h.size_le
    omega
  | succ fuel ih =>
    rw [run]
    cases hlabel : e.labels.order[next]? with
    | none => exact .done hlabel
    | some v =>
      have hlt : next < e.labels.size := (Array.getElem?_eq_some_iff.1 hlabel).1
      have hmem : v ∈ e.labels.order.toList := by
        rw [← Array.getElem?_toList] at hlabel
        exact List.mem_of_getElem? hlabel
      rcases hvalue : Emission.value r { e with lines := e.lines.push (.label (LabelTable.label next)) } v with
        ⟨e', failure | failure⟩
      · simp only [hvalue]
        have h' := (h.lines _).value hr (h.proper.labelled v hmem).1 hvalue
        obtain ⟨id, o, -, -, -, -, -, hlabels, -⟩ := value_spec hr (h.proper.labelled v hmem).1 hvalue
        have hextends := (DataItem.extends_lines (e'.heap.block r o).items e.labels).size_le
        rw [hlabels.symm] at hextends
        exact .next hlabel hvalue (ih h' (Nat.le_trans hlt hextends) (by omega))
      · simp only [hvalue]
        exact .fails hlabel hvalue

end Within

/-! ### The bound -/

/-- The values that can get labels: those that have one, those that objects hold, and the name strings to come. -/
def pool (e : Emission) : List Value :=
  e.labels.order.toList ++ .missingVtable :: e.heap.objects.toList.flatMap Object.held ++
    (List.range (2 * e.heap.unnamed)).map fun k => .object (e.heap.objects.size + k)

theorem within_pool (h : e.labels.Proper) : e.Within e.pool (e.heap.objects.size + 2 * e.heap.unnamed) where
  proper := h
  labels v hv := by simp [pool, hv]
  held id o hget v hv := by
    have ho : o ∈ e.heap.objects.toList := by
      obtain ⟨hlt, rfl⟩ := Array.getElem?_eq_some_iff.1 hget
      exact Array.getElem_mem_toList hlt
    have hmem : v ∈ e.heap.objects.toList.flatMap Object.held := List.mem_flatMap_of_mem ho hv
    simp only [pool, List.mem_append, List.mem_cons]
    exact .inl (.inr (.inr hmem))
  fresh i hle hlt := by
    have hmem : Value.object i ∈
        (List.range (2 * e.heap.unnamed)).map fun k => Value.object (e.heap.objects.size + k) :=
      List.mem_map.2 ⟨i - e.heap.objects.size, List.mem_range.2 (by omega), by rw [Nat.add_sub_cancel' hle]⟩
    exact List.mem_append_right _ hmem
  room := Nat.le_refl _
  missing := by simp [pool]

theorem length_held_add_unnamed_le (objects : List Object) :
    (objects.flatMap Object.held).length + 2 * objects.countP Object.isUnnamed ≤ 4 * Heap.weight ⟨objects.toArray⟩ := by
  induction objects with
  | nil => exact Nat.le_refl _
  | cons o rest ih =>
    have hheld := o.length_held_le
    have hweight : Heap.weight ⟨(o :: rest).toArray⟩ = o.valueCount + 1 + Heap.weight ⟨rest.toArray⟩ := by
      simp [Heap.weight]
    rw [List.flatMap_cons, List.length_append, List.countP_cons, hweight]
    split <;> omega

theorem length_pool_le (e : Emission) : e.pool.length ≤ e.bound := by
  have hle : (e.heap.objects.toList.flatMap Object.held).length + 2 * e.heap.objects.toList.countP Object.isUnnamed ≤
      4 * e.heap.weight := length_held_add_unnamed_le e.heap.objects.toList
  simp only [pool, bound, Heap.unnamed, LabelTable.size, List.length_append, List.length_cons, List.length_map,
    List.length_range, Array.length_toList]
  omega

/-- The loop over the labels ends, and `all` is what it comes to. -/
theorem emits_iff (hr : r.MakesStrings) (h : e.labels.Proper) {result : Emission × Option Failure} :
    Emits r 0 e result ↔ result = all r e := by
  have hall : Emits r 0 e (all r e) :=
    (within_pool h).emits_run hr (Nat.zero_le _) (Nat.lt_succ_of_le e.length_pool_le)
  constructor
  · intro hresult
    exact hresult.unique hall
  · rintro rfl
    exact hall

end Emission

end JvmAot
