import JvmAot.Proofs.Layout.Family
import JvmAot.Proofs.Layout.Vtable
import Mathlib.Data.List.Nodup

/-! # Vtables that continue each other

A vtable allocator starts with the slots of the table that it continues and gives them to methods one after the other
(`Vtable.allocateAll`). Keys stay where they are, no key gets a second slot, and a slot has the last method that was
given its key (`get?_allocateAll`). In a family of allocators every table is made that way from the one that it
continues (`Grown`), so a slot that a method got stays that of its key in all tables that continue its own. -/

namespace JvmAot

/-- A method that asks for a slot. -/
structure MethodRequest (α : Type) where
  name : String
  descriptor : String
  method : α
  deriving DecidableEq, Repr

/-- The key of the slot. -/
def MethodRequest.key {α : Type} (q : MethodRequest α) : String :=
  slotKey q.name q.descriptor

/-- The last method that asks for the slot of a key. -/
def lastMethod {α : Type} (key : String) (requests : List (MethodRequest α)) : Option α :=
  (requests.reverse.find? (·.key == key)).map (·.method)

theorem lastMethod_concat {α : Type} (key : String) (requests : List (MethodRequest α)) (q : MethodRequest α) :
    lastMethod key (requests ++ [q]) = if q.key = key then some q.method else lastMethod key requests := by
  by_cases h : q.key = key <;> simp [lastMethod, h]

namespace Vtable

variable {α : Type} {v w : Vtable α} {key k : String} {method : α} {n : Nat} {requests : List (MethodRequest α)}

/-- The keys of the slots from slot 1 on. -/
def keys (v : Vtable α) : List String :=
  v.slots.map Prod.fst

/-- The key of a slot. Slot 0 has none. -/
def key? (v : Vtable α) : Nat → Option String
  | 0 => none
  | i + 1 => v.keys[i]?

theorem key?_of_prefix (h : v.keys <+: w.keys) (hkey : v.key? n = some key) : w.key? n = some key := by
  cases n with
  | zero => cases hkey
  | succ i =>
    obtain ⟨more, hmore⟩ := h
    have hkey : v.keys[i]? = some key := hkey
    show w.keys[i]? = some key
    rw [← hmore, List.getElem?_append_left (List.getElem?_eq_some_iff.1 hkey).1, hkey]

theorem notMem_keys (h : v.slot? key = none) : key ∉ v.keys := by
  intro hmem
  rw [slot?_eq_map, Option.map_eq_none_iff, List.findIdx?_eq_none_iff] at h
  simpa using h key hmem

/-- The slot of a key is the one that has it. -/
theorem slot?_of_key? (hnodup : v.keys.Nodup) (hkey : v.key? n = some key) : v.slot? key = some n := by
  cases n with
  | zero => cases hkey
  | succ i =>
    obtain ⟨hlt, hget⟩ := List.getElem?_eq_some_iff.1 (show v.keys[i]? = some key from hkey)
    have hfind : v.keys.findIdx? (· == key) = some i := by
      refine List.findIdx?_eq_some_iff_getElem.2 ⟨hlt, by simpa using hget, fun j hj => ?_⟩
      have hne : v.keys[j] ≠ v.keys[i] := fun heq => Nat.ne_of_lt hj (hnodup.getElem_inj_iff.1 heq)
      rw [hget] at hne
      simpa using hne
    rw [slot?_eq_map]
    exact Option.map_eq_some_iff.2 ⟨i, hfind, rfl⟩

/-! ### One method -/

theorem keys_prefix_allocate (v : Vtable α) (key : String) (method : α) : v.keys <+: (v.allocate key method).2.keys :=
  ⟨_, (keys_allocate v key method).symm⟩

theorem nodup_keys_allocate (hnodup : v.keys.Nodup) : (v.allocate key method).2.keys.Nodup := by
  rw [keys, keys_allocate]
  cases h : v.slot? key with
  | some i =>
    rw [Option.isSome_some, if_pos rfl, List.append_nil]
    exact hnodup
  | none =>
    have hnew := notMem_keys h
    rw [Option.isSome_none, if_neg Bool.false_ne_true]
    exact List.nodup_append.2 ⟨hnodup, List.nodup_singleton key, fun a ha b hb heq =>
      hnew (List.mem_singleton.1 hb ▸ heq ▸ ha)⟩

/-- A slot with another key was there before. -/
theorem key?_of_allocate (hk : k ≠ key) (h : (v.allocate key method).2.key? n = some k) : v.key? n = some k := by
  cases n with
  | zero => cases h
  | succ i =>
    have h : ((v.allocate key method).2.slots.map Prod.fst)[i]? = some k := h
    rw [keys_allocate, List.getElem?_append] at h
    split at h
    · exact h
    · split at h
      · cases h
      · exact absurd (List.mem_singleton.1 (List.mem_of_getElem? h)) hk

/-! ### Any number of methods -/

/-- The table after some methods have taken their slots. -/
def allocateAll (v : Vtable α) (requests : List (MethodRequest α)) : Vtable α :=
  requests.foldl (fun v q => (v.allocate q.key q.method).2) v

theorem allocateAll_concat (v : Vtable α) (requests : List (MethodRequest α)) (q : MethodRequest α) :
    v.allocateAll (requests ++ [q]) = ((v.allocateAll requests).allocate q.key q.method).2 :=
  List.foldl_append

theorem keys_prefix_allocateAll (v : Vtable α) (requests : List (MethodRequest α)) :
    v.keys <+: (v.allocateAll requests).keys := by
  induction requests generalizing v with
  | nil => exact List.prefix_refl _
  | cons q rest ih => exact (v.keys_prefix_allocate q.key q.method).trans (ih _)

theorem nodup_keys_allocateAll (hnodup : v.keys.Nodup) (requests : List (MethodRequest α)) :
    (v.allocateAll requests).keys.Nodup := by
  induction requests generalizing v with
  | nil => exact hnodup
  | cons q rest ih => exact ih (nodup_keys_allocate hnodup)

/-- A slot has the last method with its key, or what it had before if there is none. -/
theorem get?_allocateAll (hnodup : v.keys.Nodup) (hkey : (v.allocateAll requests).key? n = some key) :
    (v.allocateAll requests).get? n = match lastMethod key requests with
      | some method => some (some method)
      | none => v.get? n := by
  induction requests using List.reverseRecOn with
  | nil => rfl
  | append_singleton requests q ih =>
    have hbefore := nodup_keys_allocateAll hnodup requests
    rw [allocateAll_concat] at hkey ⊢
    rw [lastMethod_concat]
    by_cases hq : q.key = key
    · -- The method was put into the slot of its key.
      subst hq
      have hslot := slot?_of_key? (nodup_keys_allocate hbefore) hkey
      rw [slot?_allocate_self] at hslot
      rw [if_pos rfl, ← Option.some.inj hslot]
      exact get?_allocate_self ..
    · have hkey' := key?_of_allocate (Ne.symm hq) hkey
      rw [if_neg hq, get?_allocate_of_ne (Ne.symm hq) (slot?_of_key? hbefore hkey')]
      exact ih hkey'

theorem slot?_allocate_of_some (h : v.slot? k = some n) : (v.allocate key method).2.slot? k = some n := by
  by_cases hk : k = key
  · subst hk
    rw [slot?_allocate_self, allocate_fst_of_slot? h]
  · rw [slot?_allocate_of_ne hk, h]

end Vtable

/-! ### Families of vtable allocators -/

/-- Vtable allocators. -/
def vtableAllocators (α : Type) : AllocatorScheme (VtableAllocator α) (Vtable α) (MethodRequest α) Nat where
  new := {}
  child := VtableAllocator.child
  serve q a := a.allocate q.key q.method
  finish := VtableAllocator.finish

namespace vtableAllocators

open AllocatorScheme

/-- A vtable allocator with its past. -/
abbrev Owner (α : Type) := Member (VtableAllocator α) (Vtable α) (MethodRequest α) Nat

variable {α : Type} {m c : Owner α} {i : Nat} {q : MethodRequest α} {a a' : VtableAllocator α} {t : Vtable α}
  {slot : Nat} {f : Family (VtableAllocator α) (Vtable α) (MethodRequest α) Nat}

theorem allocate_eq_ok (h : a.allocate q.key q.method = .ok (slot, a')) :
    ¬ a.isSealed ∧ a'.isSealed = a.isSealed ∧ slot = (a.table.allocate q.key q.method).1 ∧
      a'.table = (a.table.allocate q.key q.method).2 := by
  unfold VtableAllocator.allocate at h
  split at h
  · cases h
  · cases h
    exact ⟨‹_›, rfl, rfl, rfl⟩

theorem finish_eq_ok (h : a.finish = .ok (t, a')) : t = a.table ∧ a'.table = a.table ∧ a'.isSealed = true := by
  unfold VtableAllocator.finish at h
  split at h
  · cases h
  · cases h
    exact ⟨rfl, rfl, rfl⟩

theorem lawful : (vtableAllocators α).Lawful where
  child := ⟨_, rfl⟩
  finish h := by
    obtain ⟨-, -, hsealed⟩ := finish_eq_ok h
    exact ⟨fun q => ⟨(Cause.vtableSealed : Failure), if_pos hsealed⟩, (Cause.vtableSealed : Failure), if_pos hsealed⟩

/-- The table that an allocator has made so far. -/
def table (m : Owner α) : Vtable α :=
  m.state.table

/-- The methods that an allocator was given, in order. -/
def methods (m : Owner α) : List (MethodRequest α) :=
  m.given.map Prod.fst

/-- What holds of an allocator whatever the others are. -/
structure Proper (m : Owner α) : Prop where
  nodup : (table m).keys.Nodup
  /-- Every method that it or one before it was given has kept its slot. -/
  slot? : ∀ e ∈ m.all, (table m).slot? e.1.key = some e.2
  sealed : ∀ t, m.result = some t → t = table m
  isSealed : m.state.isSealed = m.result.isSome
  root : m.parent = none → table m = ({} : Vtable α).allocateAll (methods m)

theorem table_gives (m : Owner α) (q : MethodRequest α) (slot : Nat)
    (ha : a.table = (m.state.table.allocate q.key q.method).2) :
    table (m.gives q slot a) = ((table m).allocate q.key q.method).2 :=
  ha

theorem methods_gives (m : Owner α) (q : MethodRequest α) (slot : Nat) (a : VtableAllocator α) :
    methods (m.gives q slot a) = methods m ++ [q] := by
  simp [methods, Member.gives]

theorem invariant_proper : (vtableAllocators α).Invariant Proper where
  new := ⟨List.nodup_nil, by simp [Member.all], by simp, rfl, fun _ => rfl⟩
  child {m p t a} h hresult hchild := by
    cases hchild
    obtain rfl := h.sealed t hresult
    refine ⟨h.nodup, fun e he => h.slot? e ?_, by simp [Member.heir], rfl, by simp [Member.heir]⟩
    simpa [Member.all, Member.heir] using he
  serve {m q slot a} h hserve := by
    obtain ⟨hopen, hsame, rfl, htable⟩ := allocate_eq_ok hserve
    have hresult : m.result = none := by
      rw [h.isSealed] at hopen
      exact Option.not_isSome_iff_eq_none.1 hopen
    refine ⟨?_, fun e he => ?_, fun t ht => ?_, ?_, fun hroot => ?_⟩
    · rw [table_gives m q _ htable]
      exact Vtable.nodup_keys_allocate h.nodup
    · rw [table_gives m q _ htable]
      have he : e ∈ m.all ++ [(q, (m.state.table.allocate q.key q.method).1)] := by
        simpa [Member.all, Member.gives] using he
      rcases List.mem_append.1 he with he | he
      · exact Vtable.slot?_allocate_of_some (h.slot? e he)
      · rw [List.mem_singleton.1 he]
        exact Vtable.slot?_allocate_self ..
    · exact absurd (hresult.symm.trans ht) (by simp)
    · exact hsame.trans h.isSealed
    · rw [table_gives m q _ htable, methods_gives, Vtable.allocateAll_concat, ← h.root hroot]
  finish {m t a} h hfinish := by
    obtain ⟨rfl, htable, hsealed⟩ := finish_eq_ok hfinish
    have hsame : table (m.closes m.state.table a) = table m := htable
    refine ⟨?_, fun e he => ?_, ?_, hsealed, fun hroot => ?_⟩
    · rw [hsame]
      exact h.nodup
    · rw [hsame]
      exact h.slot? e he
    · rintro _ ⟨⟩
      exact hsame.symm
    · rw [hsame]
      exact h.root hroot

/-- The table of `c` comes from that of `m` and from the methods that `c` was given. -/
structure Grown (m c : Owner α) : Prop where
  inherited : c.inherited = m.all
  table : table c = (table m).allocateAll (methods c)

theorem passes_grown : (vtableAllocators α).Passes Proper Grown where
  child {m p t a} h hresult hchild := by
    cases hchild
    obtain rfl := h.sealed t hresult
    exact ⟨rfl, rfl⟩
  serve {m c q slot a} _ h hserve := by
    obtain ⟨-, -, -, htable⟩ := allocate_eq_ok hserve
    refine ⟨h.inherited, ?_⟩
    rw [table_gives c q _ htable, methods_gives, Vtable.allocateAll_concat, ← h.table]
  finish {m c t a} h hfinish := by
    obtain ⟨-, htable, -⟩ := finish_eq_ok hfinish
    exact ⟨h.inherited, htable.trans h.table⟩

/-- What was given out before is among what a table that continues it has. -/
theorem all_subset_of_derives (hlinked : Linked Grown f) {d : Nat} (h : Derives f d i) (hm : f[i]? = some m)
    (hc : f[d]? = some c) : m.all ⊆ c.all := by
  induction h using Relation.ReflTransGen.head_induction_on generalizing c with
  | refl =>
    rw [hm] at hc
    cases hc
    exact fun _ he => he
  | head hparent _ ih =>
    obtain ⟨c', hc', hp⟩ := hparent
    rw [hc] at hc'
    cases hc'
    obtain ⟨-, parent, hparent, -, hgrown⟩ := hlinked _ c _ hc hp
    refine List.Subset.trans (ih hparent) ?_
    have hall : c.all = parent.all ++ c.given := by rw [← hgrown.inherited, Member.all]
    rw [hall]
    exact List.subset_append_left ..

/-- The table that an allocator continues, empty if there is none. -/
def base (f : Family (VtableAllocator α) (Vtable α) (MethodRequest α) Nat) (m : Owner α) : Vtable α :=
  ((m.parent.bind (f[·]?)).bind (·.result)).getD {}

theorem table_eq_allocateAll (hlinked : Linked Grown f) (hproper : ∀ m ∈ f, Proper m) (hm : f[i]? = some m) :
    (base f m).keys.Nodup ∧ table m = (base f m).allocateAll (methods m) := by
  cases hp : m.parent with
  | none =>
    have hbase : base f m = {} := by simp [base, hp]
    rw [hbase]
    exact ⟨List.nodup_nil, (hproper m (List.mem_of_getElem? hm)).root hp⟩
  | some p =>
    obtain ⟨-, parent, hparent, hsealed, hgrown⟩ := hlinked i m p hm hp
    obtain ⟨t, ht⟩ := Option.isSome_iff_exists.1 hsealed
    have hproper' := hproper parent (List.mem_of_getElem? hparent)
    have hbase : base f m = table parent := by simp [base, hp, hparent, ht, hproper'.sealed t ht]
    rw [hbase]
    exact ⟨hproper'.nodup, hgrown.table⟩

/-- What the table of an allocator has to do with those of the others. -/
structure Sound (f : Family (VtableAllocator α) (Vtable α) (MethodRequest α) Nat) (i : Nat) (m : Owner α) : Prop where
  fixed : (table m).get? 0 = some none
  distinct : ∀ n n' key, (table m).key? n = some key → (table m).key? n' = some key → n = n'
  /-- The table that it continues has its keys in the same slots. -/
  inherits : ∀ p, m.parent = some p → ∃ parent, f[p]? = some parent ∧ parent.result = some (table parent) ∧
    ∀ n key, (table parent).key? n = some key → (table m).key? n = some key
  /-- A slot has the last method that was given its key here, or else what the table that it continues has there. -/
  holds : ∀ n key, (table m).key? n = some key →
    (table m).get? n = match lastMethod key (methods m) with
      | some method => some (some method)
      | none => (base f m).get? n
  /-- A method is looked for where it was put, also in the tables that continue this one. -/
  found : ∀ q slot, (q, slot) ∈ m.given → ∀ d c, Derives f d i → f[d]? = some c →
    ∃ method, (table c).find? (slotKey q.name q.descriptor) = some (method, slot)
  sealed : ∀ t, m.result = some t → t = table m

/-- What an allocator answers to calls. -/
structure Responds (f : Family (VtableAllocator α) (Vtable α) (MethodRequest α) Nat) (i : Nat) (m : Owner α) : Prop where
  whenSealed : m.result.isSome → (∀ q, (vtableAllocators α).step f (.serve i q) = .error (Cause.vtableSealed : Failure)) ∧
    (vtableAllocators α).step f (.finish i) = .error (Cause.vtableSealed : Failure) ∧
    ∃ f', (vtableAllocators α).step f (.child i) = .ok f'
  whenOpen : m.result = none → (∀ q, ∃ f', (vtableAllocators α).step f (.serve i q) = .ok f') ∧
    (∃ f', (vtableAllocators α).step f (.finish i) = .ok f') ∧
    (vtableAllocators α).step f (.child i) = .error (Cause.vtableNotSealed : Failure)

theorem Proper.responds (h : Proper m) (hm : f[i]? = some m) : Responds f i m := by
  refine ⟨fun hsome => ?_, fun hnone => ?_⟩
  · have hsealed : m.state.isSealed = true := h.isSealed.trans hsome
    obtain ⟨t, ht⟩ := Option.isSome_iff_exists.1 hsome
    refine ⟨fun q => ?_, ?_, ?_⟩
    · simp [step, update, hm, vtableAllocators, VtableAllocator.allocate, hsealed, Except.map]
    · simp [step, update, hm, vtableAllocators, VtableAllocator.finish, hsealed, Except.map]
    · simp [step, hm, vtableAllocators, VtableAllocator.child, ht, Except.map]
  · have hopen : m.state.isSealed = false := h.isSealed.trans (by rw [hnone]; rfl)
    refine ⟨fun q => ?_, ?_, ?_⟩
    · simp [step, update, hm, vtableAllocators, VtableAllocator.allocate, hopen, Except.map]
    · simp [step, update, hm, vtableAllocators, VtableAllocator.finish, hopen, Except.map]
    · simp [step, hm, vtableAllocators, VtableAllocator.child, hnone, Except.map]

theorem sound_of_linked (hlinked : Linked Grown f) (hproper : ∀ m ∈ f, Proper m) (hm : f[i]? = some m) : Sound f i m := by
  have hown := hproper m (List.mem_of_getElem? hm)
  obtain ⟨hbase, htable⟩ := table_eq_allocateAll hlinked hproper hm
  refine ⟨rfl, fun n n' key hn hn' => ?_, fun p hp => ?_, fun n key hkey => ?_, fun q slot hq d c hd hc => ?_, hown.sealed⟩
  · have hslot := Vtable.slot?_of_key? hown.nodup hn
    rw [Vtable.slot?_of_key? hown.nodup hn'] at hslot
    exact (Option.some.inj hslot).symm
  · obtain ⟨-, parent, hparent, hsealed, hgrown⟩ := hlinked i m p hm hp
    obtain ⟨t, ht⟩ := Option.isSome_iff_exists.1 hsealed
    obtain rfl := (hproper parent (List.mem_of_getElem? hparent)).sealed t ht
    refine ⟨parent, hparent, ht, fun n key hkey => Vtable.key?_of_prefix ?_ hkey⟩
    rw [hgrown.table]
    exact Vtable.keys_prefix_allocateAll ..
  · rw [htable] at hkey ⊢
    exact Vtable.get?_allocateAll hbase hkey
  · -- A table that continues this one was given the slot too, by one before it.
    have hall : (q, slot) ∈ c.all := all_subset_of_derives hlinked hd hm hc (List.mem_append_right _ hq)
    have hslot := (hproper c (List.mem_of_getElem? hc)).slot? _ hall
    exact Vtable.exists_find? hslot

/-- Whatever was called on the allocators of a family, and in whatever order: slot 0 of a table has no method, no key has
two slots, and a table has the keys of the one that it continues where that has them. A method is found in the slot that
it got, in this table and in all that continue it, and a slot has the last method given to it. Calls to an allocator
change no other one and no table that was sealed, and calls that fail change nothing. -/
theorem tables_kept (calls : List (Call (MethodRequest α))) (hm : ((vtableAllocators α).run calls)[i]? = some m) :
    Sound ((vtableAllocators α).run calls) i m ∧ Responds ((vtableAllocators α).run calls) i m ∧
      (∀ call, call.target ≠ some i ∨ m.result.isSome →
        ((vtableAllocators α).run (calls ++ [call]))[i]? = some m) ∧
      ∀ call failure, (vtableAllocators α).step ((vtableAllocators α).run calls) call = .error failure →
        (vtableAllocators α).run (calls ++ [call]) = (vtableAllocators α).run calls := by
  have hproper : ∀ m ∈ (vtableAllocators α).run calls, Proper m := invariant_proper.run lawful calls
  have hlinked : Linked Grown ((vtableAllocators α).run calls) := passes_grown.run invariant_proper lawful calls
  refine ⟨sound_of_linked hlinked hproper hm, (hproper m (List.mem_of_getElem? hm)).responds hm, fun call hcall => ?_,
    fun call failure hfails => ?_⟩
  · rw [run_concat]
    rcases hcall with hother | hsealed
    · exact (lawful.moves _ call).getElem? hm hother
    · exact lawful.getElem?_sealed calls call hm hsealed
  · rw [run_concat]
    exact after_of_error hfails

/-- A class with two methods, a subclass that overrides one of them twice and adds one, and a subclass of that. Some calls
fail. -/
def family : List (Call (MethodRequest Nat)) :=
  [.new, .serve 0 ⟨"hash", "()I", 1⟩, .serve 0 ⟨"equals", "(LA;)Z", 2⟩, .child 0, .finish 0, .serve 0 ⟨"late", "()V", 3⟩,
    .child 0, .serve 1 ⟨"hash", "()J", 4⟩, .serve 1 ⟨"run", "()V", 5⟩, .serve 1 ⟨"hash", "()I", 6⟩, .finish 1, .child 1,
    .finish 0, .serve 2 ⟨"run", "()V", 7⟩, .child 0, .serve 3 ⟨"walk", "()V", 8⟩]

theorem family_found :
    ∃ m c method, ((vtableAllocators Nat).run family)[0]? = some m ∧ ((vtableAllocators Nat).run family)[2]? = some c ∧
      Derives ((vtableAllocators Nat).run family) 2 0 ∧ (⟨"hash", "()I", 1⟩, 1) ∈ m.given ∧
      (table c).find? (slotKey "hash" "()I") = some (method, 1) ∧
      ((vtableAllocators Nat).run (family ++ [.serve 2 ⟨"equals", "(LA;)Z", 9⟩]))[0]? = some m := by
  obtain ⟨hroot, hleaf⟩ : (((vtableAllocators Nat).run family)[0]?).isSome ∧
      (((vtableAllocators Nat).run family)[2]?).isSome := by decide +kernel
  obtain ⟨m, hm⟩ := Option.isSome_iff_exists.1 hroot
  obtain ⟨c, hc⟩ := Option.isSome_iff_exists.1 hleaf
  have hgiven : (⟨"hash", "()I", 1⟩, 1) ∈ m.given := by
    have hall : ∀ m ∈ ((vtableAllocators Nat).run family)[0]?, (⟨"hash", "()I", 1⟩, 1) ∈ m.given := by decide +kernel
    exact hall m hm
  have hparent (i p : Nat) (h : (((vtableAllocators Nat).run family)[i]?).bind (·.parent) = some p) :
      ∃ c, ((vtableAllocators Nat).run family)[i]? = some c ∧ c.parent = some p := Option.bind_eq_some_iff.1 h
  have hderives : Derives ((vtableAllocators Nat).run family) 2 0 :=
    .head (hparent 2 1 (by decide +kernel)) (.head (hparent 1 0 (by decide +kernel)) .refl)
  obtain ⟨hsound, -, hkept, -⟩ := tables_kept family hm
  obtain ⟨method, hfound⟩ := hsound.found _ 1 hgiven 2 c hderives hc
  exact ⟨m, c, method, hm, hc, hderives, hgiven, hfound, hkept _ (.inl (by decide))⟩

end vtableAllocators

end JvmAot
