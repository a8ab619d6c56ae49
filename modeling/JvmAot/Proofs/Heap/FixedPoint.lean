import JvmAot.Proofs.Heap.Serialization

/-! # Writing the object graph again

An object that was written can be written again at any later time, with the same text (`Emission.Repeats`): it still is
what it was, it has its name string if it is metadata, and all that its data refers to has a label. So a second emission
after one that succeeded finds nothing to add, neither to the labels nor to the heap (`Emission.repeats_run`). Labels are
never given up, also by an emission that fails (`Emission.extends_run`). -/

namespace JvmAot

/-- What can become of an object while objects are written: metadata gets the string with its name. -/
inductive Object.Becomes : Object → Object → Prop
  | same (o : Object) : Becomes o o
  | named {m : Metadata} {name : ObjectId} (h : m.nameString = none) :
      Becomes (.metadata m) (.metadata { m with nameString := some name })

/-- Strings are made without a change to the objects that are there, or found among them. -/
def ObjectResolver.KeepsObjects (r : ObjectResolver) : Prop :=
  ∀ {text h id h'}, r.newString text h = .ok (id, h') → ∀ i o, h.get? i = some o → h'.get? i = some o

theorem ObjectResolver.MakesStrings.keepsObjects {r : ObjectResolver} (hr : r.MakesStrings) : r.KeepsObjects := by
  intro text h id h' hnew i o hget
  obtain ⟨units, className, field, hobjects, -⟩ := hr hnew
  have hlt : i < h.objects.size := (Array.getElem?_eq_some_iff.1 hget).1
  rw [Heap.get?, hobjects, Array.getElem?_push_lt (by rw [Array.size_push]; exact Nat.lt_succ_of_lt hlt),
    Array.getElem_push_lt hlt]
  exact (Array.getElem?_eq_getElem hlt).symm.trans hget

/-! ### Heaps -/

namespace Heap

variable {h h' h'' : Heap} {r : ObjectResolver} {id : ObjectId} {o : Object} {m : Metadata}

/-- All objects of a heap are still there in a later one. -/
def Continues (h h' : Heap) : Prop :=
  ∀ id o, h.get? id = some o → ∃ o', h'.get? id = some o' ∧ o.Becomes o'

namespace Continues

theorem refl : h.Continues h :=
  fun _ o hget => ⟨o, hget, .same o⟩

theorem trans (hc : h.Continues h') (hc' : h'.Continues h'') : h.Continues h'' := by
  intro id o hget
  obtain ⟨o', hget', hbecomes⟩ := hc id o hget
  obtain ⟨o'', hget'', hbecomes'⟩ := hc' id o' hget'
  refine ⟨o'', hget'', ?_⟩
  cases hbecomes with
  | same => exact hbecomes'
  | named hnone =>
    -- No metadata gets a second string.
    cases hbecomes' with
    | same => exact .named hnone
    | named hsome => cases hsome

theorem get? (hc : h.Continues h') (hget : h.get? id = some o) (hnamed : ∀ m, o = .metadata m → m.nameString.isSome) :
    h'.get? id = some o := by
  obtain ⟨o', hget', hbecomes⟩ := hc id o hget
  cases hbecomes with
  | same => exact hget'
  | named hnone =>
    have hsome := hnamed _ rfl
    rw [hnone] at hsome
    cases hsome

/-- Metadata that has a vtable keeps it. -/
theorem vtable (hc : h.Continues h') (hv : h.vtable id ≠ .missingVtable) : h'.vtable id = h.vtable id := by
  unfold Heap.vtable metadata? at hv ⊢
  cases hget : h.get? id with
  | none =>
    rw [hget] at hv
    exact absurd rfl hv
  | some o =>
    obtain ⟨o', hget', hbecomes⟩ := hc id o hget
    rw [hget']
    cases hbecomes with
    | same => rfl
    | named => rfl

/-- The data of an object does not change, unless it refers to a vtable that is not there. -/
theorem block (hc : h.Continues h') (hv : .missingVtable ∉ (h.block r o).values) (hok : (h.block r o).failure = none) :
    (h'.block r o).items = (h.block r o).items ∧ (h'.block r o).failure = none := by
  cases o with
  | primitiveArray | objectArray =>
    simp only [Heap.block] at hv hok ⊢
    split at hok
    · cases hok
    · rename_i metadata hmetadata
      simp only [hmetadata] at hv ⊢
      rw [hc.vtable fun hmissing => hv (by simp [Block.values, DataItem.values, hmissing])]
      exact ⟨rfl, trivial⟩
  | ofClass className values =>
    simp only [Heap.block] at hv hok ⊢
    cases hlayout : r.classLayout className with
    | error =>
      rw [hlayout] at hok
      cases hok
    | ok l =>
      simp only [hlayout] at hv hok ⊢
      cases hrefusal : l.refusal? className values with
      | some cause =>
        rw [hrefusal] at hok
        cases hok
      | none =>
        simp only [hrefusal] at hv hok ⊢
        obtain ⟨hitems, hfailure⟩ := Grows.items_fieldData h h' l className values ObjectLayout.headerSize l.ordered
        rw [hc.vtable fun hmissing => hv (by simp [values_prepend, DataItem.values, hmissing])]
        exact ⟨by simp only [Block.prepend, hitems], hfailure.2 hok⟩
  | metadata m => exact ⟨rfl, rfl⟩

end Continues

/-- Metadata gets its string. -/
theorem continues_set (hkept : ∀ i o, h.get? i = some o → h'.get? i = some o)
    (hget : h.get? id = some (.metadata m)) (hnone : m.nameString = none) (string : ObjectId) :
    h.Continues (h'.set id (.metadata { m with nameString := some string })) ∧
      (h'.set id (.metadata { m with nameString := some string })).get? id =
        some (.metadata { m with nameString := some string }) := by
  have hlt : id < h'.objects.size := (Array.getElem?_eq_some_iff.1 (hkept id _ hget)).1
  have hself : (h'.set id (.metadata { m with nameString := some string })).get? id =
      some (.metadata { m with nameString := some string }) := by
    simp [set, Heap.get?, hlt]
  refine ⟨fun i o hi => ?_, hself⟩
  by_cases heq : i = id
  · subst heq
    rw [hget] at hi
    cases hi
    exact ⟨_, hself, .named hnone⟩
  · refine ⟨o, ?_, .same o⟩
    have hi' := hkept i o hi
    simpa [set, Heap.get?, Array.getElem?_setIfInBounds, Ne.symm heq] using hi'

end Heap

/-! ### Labels -/

namespace LabelTable

variable {t t' : LabelTable} {v : Value}

theorem Extends.mem (h : t.Extends t') (hv : v ∈ t.order.toList) : v ∈ t'.order.toList :=
  h.subset hv

/-- Who needs no new label leaves the table as it is. -/
theorem getAll_of_mem {values : List Value}
    (h : ∀ v ∈ values, v = .null ∨ (∃ x, v = .symbol x) ∨ v ∈ t.order.toList) : (t.getAll values).2 = t := by
  induction values with
  | nil => rfl
  | cons v rest ih =>
    obtain ⟨hfirst, hrest⟩ := List.forall_mem_cons.1 h
    have hsame : (t.get v).2 = t := by
      rcases t.get_cases v with ⟨-, heq⟩ | ⟨hnull, hsymbol, hnew, -⟩
      · exact heq
      · rcases hfirst with rfl | ⟨x, rfl⟩ | hmem
        · exact absurd rfl hnull
        · exact absurd rfl (hsymbol x)
        · exact absurd hmem hnew
    show ((t.get v).2.getAll rest).2 = t
    rw [hsame]
    exact ih hrest

end LabelTable

namespace Emission

variable {r : ObjectResolver} {e e' : Emission} {v : Value} {id : ObjectId} {m m' : Metadata} {next : Nat}

/-! ### Writing an object again -/

/-- Whenever the value is written later, with a vtable for all metadata that needs one, it is written as `added`, and
nothing else happens. -/
def Repeats (r : ObjectResolver) (e : Emission) (v : Value) (added : List Line) : Prop :=
  ∀ later : Emission, e.heap.Continues later.heap → e.labels.Extends later.labels →
    .missingVtable ∉ later.labels.order.toList →
    value r later v = ({ later with lines := later.lines ++ added }, none)

theorem missingVtable_mem_of_mem_values {items : List DataItem} (t : LabelTable)
    (h : .missingVtable ∈ items.flatMap DataItem.values) : .missingVtable ∈ (DataItem.lines t items).2.order.toList := by
  obtain ⟨text, hname⟩ := DataItem.names_of_mem_lines h t
  cases hname with
  | object hn => exact List.mem_of_getElem? hn

/-- The data of an object is the same later. -/
theorem write_later {o : Object} {later : Emission} (hok : (e.heap.block r o).failure = none)
    (hheap : e.heap.Continues later.heap)
    (hlabels : (DataItem.lines e.labels (e.heap.block r o).items).2.Extends later.labels)
    (hmissing : .missingVtable ∉ later.labels.order.toList) :
    later.write (later.heap.block r o) =
      ({ later with lines := later.lines ++ (DataItem.lines e.labels (e.heap.block r o).items).1 }, none) := by
  have hvalues : .missingVtable ∉ (e.heap.block r o).values := fun hmem =>
    hmissing (hlabels.mem (missingVtable_mem_of_mem_values e.labels hmem))
  obtain ⟨hitems, hfailure⟩ := hheap.block hvalues hok
  rw [write, hitems, hfailure, DataItem.lines_of_extends _ hlabels]

theorem continues_ensureName (hr : r.KeepsObjects) (hget : e.heap.get? id = some (.metadata m))
    (h : e.ensureName r id m = .ok (m', e')) :
    e.heap.Continues e'.heap ∧ e'.heap.get? id = some (.metadata m') := by
  rcases ensureName_cases h with ⟨-, rfl, rfl⟩ | ⟨string, heap, hname, hnew, rfl, rfl⟩
  · exact ⟨.refl, hget⟩
  · exact Heap.continues_set (hr hnew) hget hname string

theorem ensureName_of_isSome (r : ObjectResolver) (e : Emission) (id : ObjectId) (h : m.nameString.isSome) :
    e.ensureName r id m = .ok (m, e) := by
  obtain ⟨name, hname⟩ := Option.isSome_iff_exists.1 h
  simp only [ensureName, hname]

/-- An object that was written can be written again. -/
theorem repeats_value (hr : r.KeepsObjects) (hv : v ≠ .null) (h : value r e v = (e', none)) :
    (∃ id, v = .object id) ∧ e.heap.Continues e'.heap ∧ (∃ items, e'.labels = (DataItem.lines e.labels items).2) ∧
      ∃ added : List Line, e'.lines = e.lines ++ added ∧ Repeats r e' v added := by
  unfold value at h
  split at h
  · exact absurd rfl hv
  · rename_i id
    split at h
    · rename_i m hget
      split at h
      · cases h
      · rename_i m' e₁ hname
        obtain ⟨hheap, hself⟩ := continues_ensureName hr hget hname
        obtain ⟨hsome, hlabels, hlines⟩ := ensureName_keeps hname
        obtain ⟨rfl, hok⟩ := Prod.mk.inj h
        refine ⟨⟨id, rfl⟩, hheap, ⟨_, congrArg (DataItem.lines · _ |>.2) hlabels⟩, _,
          congrArg (· ++ _) hlines, fun later hlater hextends hmissing => ?_⟩
        have hget' := hlater.get? hself (by rintro _ ⟨⟩; exact hsome)
        simp only [value, hget', ensureName_of_isSome r later id hsome]
        exact write_later (e := e₁) hok hlater hextends hmissing
    · rename_i o hmetadata hget
      obtain ⟨rfl, hok⟩ := Prod.mk.inj h
      refine ⟨⟨id, rfl⟩, .refl, ⟨_, rfl⟩, _, rfl, fun later hlater hextends hmissing => ?_⟩
      have hget' := hlater.get? hget fun m hm => absurd hm (hmetadata m)
      have hwrite := write_later (e := e) hok hlater hextends hmissing
      unfold value
      cases o with
      | metadata m => exact absurd rfl (hmetadata m)
      | primitiveArray | objectArray | ofClass =>
        simp only [hget']
        exact hwrite
    · cases h
  · cases h
  · cases h

/-! ### The whole emission again -/

theorem push_append_append (lines : Array Line) (line : Line) (added more : List Line) :
    lines.push line ++ added ++ more = lines ++ (line :: added ++ more) :=
  Array.toList_inj.1 (by simp)

/-- From any label on, what was written is written again, and nothing else happens. -/
theorem repeats_run {fuel : Nat} (hr : r.KeepsObjects) (hproper : e.labels.Proper) (hnext : next ≤ e.labels.size)
    (h : run r fuel next e = (e', none)) :
    e.heap.Continues e'.heap ∧ e.labels.Extends e'.labels ∧
      (∀ v ∈ e'.labels.order.toList.drop next, ∃ id, v = .object id) ∧
      ∃ added : List Line, e'.lines = e.lines ++ added ∧
        (.missingVtable ∉ e'.labels.order.toList → ∀ again lines, e'.labels.size < again + next →
          run r again next { e' with lines } = ({ e' with lines := lines ++ added }, none)) := by
  induction fuel generalizing next e with
  | zero => cases h
  | succ fuel ih =>
    rw [run] at h
    split at h
    · rename_i hnone
      obtain rfl : e = e' := congrArg Prod.fst h
      have hsize : e.labels.order.toList.length ≤ next := by simpa using hnone
      refine ⟨.refl, .refl, by simp [List.drop_eq_nil_of_le hsize], [], by simp, fun _ again lines hagain => ?_⟩
      obtain ⟨again, rfl⟩ : ∃ n, again = n + 1 := Nat.exists_eq_succ_of_ne_zero (by omega)
      simp [run, hnone]
    · rename_i v hsome
      split at h
      · cases h
      rename_i e₁ hvalue
      have hlt : next < e.labels.size := (Array.getElem?_eq_some_iff.1 hsome).1
      rw [← Array.getElem?_toList] at hsome
      have hv := (hproper.labelled v (List.mem_of_getElem? hsome)).1
      obtain ⟨hobject, hheap, ⟨items, hitems⟩, added, hlines, hrepeats⟩ := repeats_value hr hv hvalue
      have hlabels : e.labels.Extends e₁.labels := hitems ▸ DataItem.extends_lines items e.labels
      have hproper₁ : e₁.labels.Proper := hitems ▸ DataItem.proper_lines hproper items
      obtain ⟨hheap', hlabels', hobjects, more, hlines', hrest⟩ := ih hproper₁ (Nat.le_trans hlt hlabels.size_le) h
      -- The value was the next one when it was written, and still is.
      have hget : e'.labels.order.toList[next]? = some v := by
        obtain ⟨later, hlater⟩ := hlabels.trans hlabels'
        rw [← hlater, List.getElem?_append_left (by simpa [LabelTable.size] using hlt)]
        exact hsome
      obtain ⟨hlt', hget'⟩ := List.getElem?_eq_some_iff.1 hget
      refine ⟨hheap.trans hheap', hlabels.trans hlabels', ?_, .label (LabelTable.label next) :: added ++ more, ?_,
        fun hmissing again lines hagain => ?_⟩
      · rw [List.drop_eq_getElem_cons hlt', hget']
        exact List.forall_mem_cons.2 ⟨hobject, hobjects⟩
      · rw [hlines', hlines]
        exact push_append_append ..
      · obtain ⟨again, rfl⟩ : ∃ n, again = n + 1 := Nat.exists_eq_succ_of_ne_zero (by
          simp only [LabelTable.size] at hagain
          simp only [Array.length_toList] at hlt'
          omega)
        have hagain' := hrepeats { e' with lines := lines.push (.label (LabelTable.label next)) } hheap' hlabels' hmissing
        rw [Array.getElem?_toList] at hget
        rw [run]
        simp only [hget, hagain']
        rw [hrest hmissing again _ (by omega), push_append_append]

/-! ### Labels during an emission -/

theorem extends_write (e : Emission) (b : Block) : e.labels.Extends (e.write b).1.labels :=
  DataItem.extends_lines b.items e.labels

theorem extends_value (r : ObjectResolver) (e : Emission) (v : Value) : e.labels.Extends (value r e v).1.labels := by
  unfold value
  split
  · exact extends_write e _
  · split
    · split
      · exact .refl
      · rename_i hname
        exact (ensureName_keeps hname).2.1 ▸ extends_write _ _
    · exact extends_write e _
    · exact .refl
  · exact .refl
  · exact .refl

/-- No label is given up, also if the emission fails. -/
theorem extends_run (r : ObjectResolver) (fuel next : Nat) (e : Emission) :
    e.labels.Extends (run r fuel next e).1.labels := by
  induction fuel generalizing next e with
  | zero => exact .refl
  | succ fuel ih =>
    rw [run]
    split
    · exact .refl
    · rename_i v _
      have hvalue := extends_value r { e with lines := e.lines.push (.label (LabelTable.label next)) } v
      split
      · rename_i heq
        rwa [heq] at hvalue
      · rename_i heq
        rw [heq] at hvalue
        exact hvalue.trans (ih _ _)

/-- After an emission that succeeded, however many objects it was allowed to write, an emission of the same labels ends
in the same state: the same text, no new label and no new string. Labels that were given out before the first emission
or between the two stay, and to ask again for a value that has one gives out no other. -/
theorem all_fixed_point {fuel : Nat} {t : LabelTable} (hr : r.KeepsObjects) (ht : t.Proper) (heap : Heap)
    (asked : List Value) (h : run r fuel 0 { heap, labels := (t.getAll asked).2 } = (e', none)) :
    all r { heap := e'.heap, labels := e'.labels } = (e', none) ∧
      e'.labels.getAll asked = ((t.getAll asked).1, e'.labels) ∧
      ∀ more : List Value,
        ((∀ v ∈ more, v = .null ∨ (∃ x, v = .symbol x) ∨ v ∈ e'.labels.order.toList) →
          (e'.labels.getAll more).2 = e'.labels) ∧
        ∀ again e'' failure, run r again 0 { heap := e'.heap, labels := (e'.labels.getAll more).2 } = (e'', failure) →
          e''.labels.getAll asked = ((t.getAll asked).1, e''.labels) ∧
          e''.labels.getAll more = ((e'.labels.getAll more).1, e''.labels) := by
  obtain ⟨-, hextends, hobjects, added, hlines, hrun⟩ := repeats_run hr (ht.getAll asked) (Nat.zero_le _) h
  -- Only objects were written.
  have hmissing : .missingVtable ∉ e'.labels.order.toList := fun hmem => by
    obtain ⟨_, heq⟩ := hobjects _ hmem
    cases heq
  refine ⟨?_, LabelTable.getAll_of_extends hextends,
    fun more => ⟨LabelTable.getAll_of_mem, fun again e'' failure hagain => ?_⟩⟩
  · rw [all, hrun hmissing _ #[] (by simp only [bound]; omega), ← hlines]
  · have hlater := extends_run r again 0 { heap := e'.heap, labels := (e'.labels.getAll more).2 }
    rw [hagain] at hlater
    exact ⟨LabelTable.getAll_of_extends (hextends.trans ((e'.labels.getAll_spec more).1.trans hlater)),
      LabelTable.getAll_of_extends hlater⟩

/-- The ring of objects, with the strings that its emission made, is written again as it was. -/
theorem ring_written_again :
    (all (nodes 4 8) ring).2 = none ∧ ring.heap.objects.size < (all (nodes 4 8) ring).1.heap.objects.size ∧
      all (nodes 4 8) { heap := (all (nodes 4 8) ring).1.heap, labels := (all (nodes 4 8) ring).1.labels } =
        ((all (nodes 4 8) ring).1, none) := by
  obtain ⟨hnone, hsize⟩ : (all (nodes 4 8) ring).2 = none ∧
      ring.heap.objects.size < (all (nodes 4 8) ring).1.heap.objects.size := by
    rw [all_ring]
    decide +kernel
  have hkeeps : (nodes 4 8).KeepsObjects := ObjectResolver.MakesStrings.keepsObjects (makesStrings_nodes 4 8)
  exact ⟨hnone, hsize, (all_fixed_point hkeeps .empty ring.heap [.object 2] (Prod.ext rfl hnone)).1⟩

end Emission

end JvmAot
