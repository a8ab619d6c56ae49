import JvmAot.Proofs.Descriptor.Reading
import JvmAot.Proofs.Session.Determinacy

/-! # Resolution is a memo table

What a session has resolved stays as it is (`Keeps`): classes keep their place in the order, array types keep their
metadata, and no object of the heap changes. So a class or an array type that was resolved is found again by every later
call (`Reachable.memo_until_close`), and once resolution is closed a call does nothing but look things up. -/

namespace JvmAot

/-- New metadata comes with a vtable of its own, so filling that one leaves all other objects as they are. -/
theorem Heap.get?_setVtable_newMetadata {h h' : Heap} {m : Metadata} {id i : ObjectId} {o : Object}
    (hm : m.vtable = none) (heq : h.newMetadata m = (id, h')) (entries : List Value) (hget : h.get? i = some o) :
    (h'.setVtable id entries).get? i = some o := by
  obtain ⟨vtable, hmetadata, hfresh, hkept⟩ := newMetadata_spec hm heq
  have hlt : i < h.objects.size := (Array.getElem?_eq_some_iff.1 hget).1
  have hget' := hkept i o hget
  unfold setVtable
  split
  · rename_i v hv
    rw [hmetadata, if_pos rfl] at hv
    have hne : v ≠ i := Nat.ne_of_gt (Nat.lt_of_lt_of_le hlt (hfresh v hv))
    simpa [set, get?, Array.getElem?_setIfInBounds, hne] using hget'
  · exact hget'

theorem ClassTable.Ordered.super_before {c : ClassInfo} {classes before later : List ClassInfo}
    (h : Ordered classes) (heq : classes = later ++ c :: before) {n : String} (hn : c.superName = some n) :
    ∃ super ∈ before, super.name = n := by
  subst heq
  induction later with
  | nil => exact h.1.2 n hn
  | cons d later ih => exact ih h.2

namespace Session

variable {loader : Loader} {s s' s₁ : Session} {c : ClassInfo} {name descriptor : String} {id : ObjectId}

/-- All that was resolved is still there and has not changed. -/
structure Keeps (s s' : Session) : Prop where
  order : s.classes.order <+: s'.classes.order
  find? : ∀ name c, s.classes.find? name = some c → s'.classes.find? name = some c
  arrays : ∀ d id, s.arrays.lookup d = some id → s'.arrays.lookup d = some id
  heap : ∀ i o, s.heap.get? i = some o → s'.heap.get? i = some o

theorem Keeps.refl : s.Keeps s :=
  ⟨List.prefix_refl _, fun _ _ h => h, fun _ _ h => h, fun _ _ h => h⟩

theorem Keeps.trans {s'' : Session} (h : s.Keeps s') (h' : s'.Keeps s'') : s.Keeps s'' :=
  ⟨h.order.trans h'.order, fun name c hc => h'.find? name c (h.find? name c hc),
    fun d id hd => h'.arrays d id (h.arrays d id hd), fun i o ho => h'.heap i o (h.heap i o ho)⟩

/-! ### Changes -/

theorem Change.find?_classes (h : Change loader s s') (hc : s.classes.find? name = some c) :
    s'.classes.find? name = some c := by
  cases h with
  | @define n file super _ _ hfresh =>
    rcases define_cases n file super s with ⟨_, heq⟩ | ⟨d, _, _, heq, rfl, -⟩ <;> rw [heq]
    · exact hc
    · have hne : d.name ≠ name := by
        intro hname
        rw [hname, hc] at hfresh
        cases hfresh
      simp only [ClassTable.find?_insert, if_neg hne]
      exact hc
  | defineArray | designate => exact hc

theorem Change.get?_heap (h : Change loader s s') {i : ObjectId} {o : Object} (ho : s.heap.get? i = some o) :
    s'.heap.get? i = some o := by
  cases h with
  | @define n file super =>
    rcases define_cases n file super s with ⟨_, heq⟩ | ⟨d, _, _, heq, -, -, -, -, -, hnew⟩ <;> rw [heq]
    · exact ho
    · obtain ⟨-, -, -, hkept⟩ := Heap.newMetadata_spec (vtable_ite_interface ..) hnew
      exact hkept i o ho
  | defineArray => exact Heap.get?_setVtable_newMetadata rfl rfl _ ho
  | designate => exact ho

theorem Change.resolving_eq (h : Change loader s s') : s'.resolving = s.resolving := by
  cases h with
  | @define n file super =>
    rcases define_cases n file super s with ⟨_, heq⟩ | ⟨_, _, _, heq, -⟩ <;> rw [heq]
  | defineArray | designate => rfl

theorem Changes.keeps (h : Changes loader s s')
    (harrays : ∀ d id, s.arrays.lookup d = some id → s'.arrays.lookup d = some id) : s.Keeps s' := by
  refine ⟨List.reverse_prefix.2 h.steps.latest_suffix, fun name c hc => ?_, harrays, fun i o ho => ?_⟩
  · exact h.keep (P := fun s => s.classes.find? name = some c) (fun hchange hc => hchange.find?_classes hc) hc
  · exact h.keep (P := fun s => s.heap.get? i = some o) (fun hchange ho => hchange.get?_heap ho) ho

/-! ### Array types -/

theorem arrays_define {file : ClassFile} {super : Option ClassInfo} :
    (s.define name file super).2.arrays = s.arrays := by
  rcases define_cases name file super s with ⟨_, heq⟩ | ⟨_, _, _, heq, -⟩ <;> rw [heq]

theorem Resolves.arrays_eq {r : Except Failure ClassInfo × Session} (h : Resolves loader name s r) :
    r.2.arrays = s.arrays := by
  induction h with
  | fails | found => rfl
  | root => exact arrays_define
  | superFails _ _ _ ih => exact ih
  | derived _ _ _ ih => exact arrays_define.trans ih

theorem arrays_resolveClass {result : Except Failure ClassInfo} (h : s.resolveClass loader name = (result, s')) :
    s'.arrays = s.arrays := by
  have hresolves := (resolves_resolveClassWithin loader (loader.limit + 1) name s).arrays_eq
  rwa [← resolveClass, h] at hresolves

theorem lookup_defineArray {object : ClassInfo} {element : Option ObjectId} {elementType : Option BaseType}
    (h : s.defineArray object descriptor element elementType = (id, s')) (d : String) :
    s'.arrays.lookup d = if d = descriptor then some id else s.arrays.lookup d := by
  obtain ⟨rfl, rfl⟩ := Prod.mk.inj h
  by_cases hd : d = descriptor
  · simp [hd]
  · have hne : (d == descriptor) = false := by simpa using hd
    simp [hd, List.lookup_cons, hne]

/-- Array types that were there are as before, and if there is a result it is found under the descriptor. -/
structure Enters (descriptor : String) (s : Session) (r : Except Failure ObjectId × Session) : Prop where
  kept : ∀ d id, s.arrays.lookup d = some id → r.2.arrays.lookup d = some id
  self : ∀ id, r.1 = .ok id → r.2.arrays.lookup descriptor = some id

theorem Enters.fail {failure : Failure} (h : ∀ d id, s.arrays.lookup d = some id → s'.arrays.lookup d = some id) :
    Enters descriptor s (.error failure, s') :=
  ⟨h, fun _ hid => by cases hid⟩

theorem Enters.define {object : ClassInfo} {element : Option ObjectId} {elementType : Option BaseType}
    (hfresh : s.arrays.lookup descriptor = none)
    (hkept : ∀ d id, s.arrays.lookup d = some id → s₁.arrays.lookup d = some id)
    (h : s₁.defineArray object descriptor element elementType = (id, s')) : Enters descriptor s (.ok id, s') := by
  have hlookup := lookup_defineArray h
  refine ⟨fun d id' hd => ?_, fun id' hid => ?_⟩
  · have hne : d ≠ descriptor := by
      rintro rfl
      rw [hfresh] at hd
      cases hd
    rw [hlookup, if_neg hne]
    exact hkept d id' hd
  · cases hid
    rw [hlookup, if_pos rfl]

theorem enters_resolveArrayOf (loader : Loader) (leaf : FieldType) (dimension : Nat) (s : Session) :
    Enters { leaf with dimension }.toText s (resolveArrayOf loader leaf dimension s) := by
  -- A type is entered only where its descriptor was missing, and each dimension after that of its elements.
  fun_induction resolveArrayOf loader leaf dimension s with
  | case1 | case3 => exact .fail fun _ _ hd => hd
  | case2 dimension s descriptor metadata hlookup =>
    refine ⟨fun _ _ hd => hd, fun id hid => ?_⟩
    cases hid
    exact hlookup
  | case4 s _ _ _ _ _ hclass =>
    have harrays := arrays_resolveClass hclass
    exact .fail fun d id hd => by rw [harrays]; exact hd
  | case5 s _ _ _ _ _ hclass _ _ descriptor hfresh harray =>
    have harrays := arrays_resolveClass hclass
    exact .define hfresh (fun d id hd => by rw [harrays]; exact hd) harray
  | case6 s _ _ _ _ _ descriptor hfresh harray => exact .define hfresh (fun _ _ hd => hd) harray
  | case7 dimension s _ _ _ _ _ _ _ helement ih =>
    rw [helement] at ih
    exact .fail ih.kept
  | case8 dimension s descriptor _ _ hfresh _ _ _ helement _ _ harray ih =>
    rw [helement] at ih
    exact .define hfresh ih.kept harray

theorem enters_resolveArray (loader : Loader) (descriptor : String) (s : Session) :
    Enters descriptor s (s.resolveArray loader descriptor) := by
  unfold resolveArray
  split
  · rename_i hlookup
    refine ⟨fun _ _ hd => hd, fun id hid => ?_⟩
    cases hid
    exact hlookup
  split
  · exact .fail fun _ _ hd => hd
  split
  · exact .fail fun _ _ hd => hd
  split
  · rename_i type hparse _
    obtain ⟨htext, -⟩ := FieldType.toText_of_parse hparse
    have henters := enters_resolveArrayOf loader { type with dimension := 0 } type.dimension s
    rw [htext]
    exact henters
  · exact .fail fun _ _ hd => hd

/-! ### Calls -/

/-- What others call to resolve something or to end resolution. -/
inductive Call where
  | resolveClass (name : String)
  | resolveArray (descriptor : String)
  | close
  deriving DecidableEq, Repr

/-- The session that a call leaves, whether or not it succeeds. -/
def afterCall (loader : Loader) (s : Session) : Call → Session
  | .resolveClass name => (s.resolveClass loader name).2
  | .resolveArray descriptor => (s.resolveArray loader descriptor).2
  | .close => s.close

/-- The session that some calls leave. -/
def after (loader : Loader) (s : Session) (calls : List Call) : Session :=
  calls.foldl (afterCall loader) s

theorem keeps_afterCall (loader : Loader) (s : Session) (call : Call) : s.Keeps (s.afterCall loader call) := by
  cases call with
  | resolveClass name =>
    rcases hcall : s.resolveClass loader name with ⟨result, s₁⟩
    rw [afterCall, hcall]
    refine (changes_resolveClass hcall).keeps fun d id hd => ?_
    rw [arrays_resolveClass hcall]
    exact hd
  | resolveArray descriptor => exact (changes_resolveArray ..).keeps (enters_resolveArray ..).kept
  | close => exact ⟨List.prefix_refl _, fun _ _ h => h, fun _ _ h => h, fun _ _ h => h⟩

theorem keeps_after (loader : Loader) (calls : List Call) (s : Session) : s.Keeps (s.after loader calls) := by
  induction calls generalizing s with
  | nil => exact .refl
  | cons call rest ih => exact (keeps_afterCall loader s call).trans (ih _)

theorem Reachable.after (h : s.Reachable loader) (calls : List Call) : (s.after loader calls).Reachable loader := by
  induction calls generalizing s with
  | nil => exact h
  | cons call rest ih =>
    refine ih ?_
    cases call with
    | resolveClass name => exact h.resolveClass name
    | resolveArray descriptor => exact h.resolveArray descriptor
    | close => exact h.close

/-! ### Between calls -/

/-- The order of resolution and the class table are the same thing seen from two sides, and nothing is half done. -/
structure Settled (s : Session) : Prop where
  nodup : (s.classes.order.map (·.name)).Nodup
  find?_iff : ∀ name c, s.classes.find? name = some c ↔ c ∈ s.classes.order ∧ c.name = name
  super_before : ∀ before c later, s.classes.order = before ++ c :: later → ∀ n, c.superName = some n →
    ∃ super ∈ before, super.name = n
  resolving : s.resolving = []

theorem Reachable.settled (h : s.Reachable loader) : s.Settled := by
  have hordered := h.resolved.defined.linked.ordered
  refine ⟨hordered.nodup_order, fun name c => ⟨fun hc => ?_, ?_⟩, fun before c later heq n hn => ?_, ?_⟩
  · exact ⟨ClassTable.mem_order.2 (ClassTable.mem_of_find? hc), ClassTable.name_of_find? hc⟩
  · rintro ⟨hc, rfl⟩
    exact hordered.find?_name (ClassTable.mem_order.1 hc)
  · -- The table has the latest class first, so what comes before a class in the order stands behind it there.
    have hlatest : s.classes.latest = later.reverse ++ c :: before.reverse := by
      rw [ClassTable.order] at heq
      simpa using congrArg List.reverse heq
    obtain ⟨super, hmem, hname⟩ := hordered.super_before hlatest hn
    exact ⟨super, List.mem_reverse.1 hmem, hname⟩
  · refine h.induct (P := fun s => s.resolving = []) rfl (fun hchange hs => ?_) (fun hs => hs)
    exact hchange.resolving_eq.trans hs

/-! ### Closed sessions -/

theorem close_of_isClosed (h : s.isClosed) : s.close = s := by
  have hsealed : s.statics.isSealed = true := h
  rw [close, ← hsealed]

/-- The loader is not asked any more. -/
theorem resolveClass_of_isClosed (loader : Loader) (h : s.isClosed)
    (hnone : s.classes.find? (ClassName.slashed name) = none) :
    s.resolveClass loader name =
      (.error (if ClassName.isArray name then Cause.arrayAsClass name
        else Cause.classResolutionClosed (ClassName.slashed name) : Cause), s) := by
  rw [resolveClass, resolveClassWithin]
  split
  · rfl
  · simp only [hnone]

theorem resolveArray_of_isClosed (loader : Loader) (h : s.isClosed) (hnone : s.arrays.lookup descriptor = none) :
    s.resolveArray loader descriptor = (.error (Cause.arrayResolutionClosed descriptor : Cause), s) := by
  simp only [resolveArray, hnone, h, if_true]

theorem afterCall_of_isClosed (loader : Loader) (h : s.isClosed) (call : Call) : s.afterCall loader call = s := by
  cases call with
  | resolveClass name =>
    rw [afterCall]
    cases hfind : s.classes.find? (ClassName.slashed name) with
    | none => rw [resolveClass_of_isClosed loader h hfind]
    | some c =>
      rw [resolveClass, resolveClassWithin]
      split
      · rfl
      · simp only [hfind]
  | resolveArray descriptor =>
    rw [afterCall]
    cases hlookup : s.arrays.lookup descriptor with
    | none => rw [resolveArray_of_isClosed loader h hlookup]
    | some id => simp only [resolveArray, hlookup]
  | close => exact close_of_isClosed h

theorem after_of_isClosed (loader : Loader) (h : s.isClosed) (calls : List Call) : s.after loader calls = s := by
  induction calls with
  | nil => rfl
  | cons call rest ih =>
    rw [after, List.foldl_cons, afterCall_of_isClosed loader h]
    exact ih

/-! ### The memo table -/

theorem Reachable.resolveClass_after (h : s.Reachable loader)
    (hc : s.classes.find? (ClassName.slashed name) = some c) (calls : List Call) :
    (s.after loader calls).resolveClass loader name = (.ok c, s.after loader calls) := by
  have hlater := (keeps_after loader calls s).find? _ _ hc
  have hlinked := (h.after calls).resolved.defined.linked
  -- Whichever form of the name was used, the table has the one with slashes.
  exact resolveClass_of_mem hlinked (ClassTable.mem_of_find? hlater) (ClassTable.name_of_find? hlater).symm

theorem resolveArray_after (hid : s.arrays.lookup descriptor = some id) (calls : List Call) :
    (s.after loader calls).resolveArray loader descriptor = (.ok id, s.after loader calls) := by
  have hlater := (keeps_after loader calls s).arrays _ _ hid
  simp only [resolveArray, hlater]

theorem Reachable.resolveClass_again (h : s.Reachable loader) {again : String}
    (hc : s.resolveClass loader name = (.ok c, s₁)) (hname : ClassName.slashed again = ClassName.slashed name)
    (calls : List Call) : (s₁.after loader calls).resolveClass loader again = (.ok c, s₁.after loader calls) := by
  have hreachable : s₁.Reachable loader := by
    have hnext := h.resolveClass name
    rwa [hc] at hnext
  refine hreachable.resolveClass_after ?_ calls
  rw [hname]
  exact find?_of_resolveClass hc

theorem resolveArray_again (hid : s.resolveArray loader descriptor = (.ok id, s₁)) (calls : List Call) :
    (s₁.after loader calls).resolveArray loader descriptor = (.ok id, s₁.after loader calls) := by
  have henters := (enters_resolveArray loader descriptor s).self id
  rw [hid] at henters
  exact resolveArray_after (henters rfl) calls

/-- Whatever calls were made before, and whatever calls come next, failed ones included: the classes stand in one order
without repetition, each is found by its name and comes after its superclass, and none is left half resolved. All
that was resolved stays unchanged, and who asks for it gets it, be it resolved by a call of its own or on the way. From
the closing on nothing changes at all, and who asks for something new is told that resolution is closed. -/
theorem Reachable.memo_until_close (h : s.Reachable loader) (calls : List Call) :
    (s.after loader calls).Settled ∧ s.Keeps (s.after loader calls) ∧
      (∀ name c, s.classes.find? (ClassName.slashed name) = some c →
        (s.after loader calls).resolveClass loader name = (.ok c, s.after loader calls)) ∧
      (∀ d id, s.arrays.lookup d = some id →
        (s.after loader calls).resolveArray loader d = (.ok id, s.after loader calls)) ∧
      (∀ name again c s₁, s.resolveClass loader name = (.ok c, s₁) →
        ClassName.slashed again = ClassName.slashed name →
        (s₁.after loader calls).resolveClass loader again = (.ok c, s₁.after loader calls)) ∧
      (∀ d id s₁, s.resolveArray loader d = (.ok id, s₁) →
        (s₁.after loader calls).resolveArray loader d = (.ok id, s₁.after loader calls)) ∧
      s.close.after loader calls = s.close ∧
      (∀ name, s.classes.find? (ClassName.slashed name) = none → ∃ cause,
        s.close.resolveClass loader name = (.error { cause }, s.close) ∧ cause.kind = .invariant ∧
        (cause = .arrayAsClass name ∨ cause = .classResolutionClosed (ClassName.slashed name))) ∧
      (∀ d, s.arrays.lookup d = none → ∃ cause,
        s.close.resolveArray loader d = (.error { cause }, s.close) ∧ cause.kind = .invariant ∧
        cause = .arrayResolutionClosed d) := by
  have hclosed : s.close.isClosed := rfl
  refine ⟨(h.after calls).settled, keeps_after loader calls s, fun name c hc => h.resolveClass_after hc calls,
    fun d id hid => resolveArray_after hid calls, fun name again c s₁ hc hname => ?_,
    fun d id s₁ hid => resolveArray_again hid calls, after_of_isClosed loader hclosed calls, fun name hnone => ?_,
    fun d hnone => ?_⟩
  · exact h.resolveClass_again hc hname calls
  · have hrefused := resolveClass_of_isClosed (s := s.close) loader hclosed hnone
    by_cases harray : ClassName.isArray name
    · rw [if_pos harray] at hrefused
      exact ⟨_, hrefused, rfl, .inl rfl⟩
    · rw [if_neg harray] at hrefused
      exact ⟨_, hrefused, rfl, .inr rfl⟩
  · exact ⟨_, resolveArray_of_isClosed (s := s.close) loader hclosed hnone, rfl, rfl⟩

/-- Calls that fail, and then the closing. -/
def lateCalls : List Call :=
  [.resolveClass "Lost", .resolveArray "[Q", .close, .resolveArray "[LLost;"]

theorem ledger_found_again :
    ∃ c id, ledgerFirst.resolveClass tallies "Ledger" = (.ok c, ledgerFirst) ∧
      (ledgerFirst.after tallies lateCalls).resolveClass tallies "Ledger" =
        (.ok c, ledgerFirst.after tallies lateCalls) ∧
      ledgerFirst.resolveArray tallies "[[LLedger;" = (.ok id, ledgerFirst) ∧
      (ledgerFirst.after tallies lateCalls).resolveArray tallies "[[LLedger;" =
        (.ok id, ledgerFirst.after tallies lateCalls) ∧
      ∃ cause, ledgerFirst.close.resolveClass tallies "Lost" = (.error { cause }, ledgerFirst.close) ∧
        cause.kind = .invariant := by
  have hreachable : ledgerFirst.Reachable tallies :=
    .resolveClass (.resolveClass (.resolveArray (.bootstrap .start) "[[LLedger;") "Lost") "Tally"
  obtain ⟨⟨c, hmem, hname⟩, hsome, hlost⟩ :
      (∃ c ∈ ledgerFirst.classes.latest, ClassName.slashed "Ledger" = c.name) ∧
      (ledgerFirst.arrays.lookup "[[LLedger;").isSome ∧
      ledgerFirst.classes.find? (ClassName.slashed "Lost") = none := by decide +kernel
  obtain ⟨id, hlookup⟩ := Option.isSome_iff_exists.1 hsome
  have hc := resolveClass_of_mem hreachable.resolved.defined.linked hmem hname
  have hid : ledgerFirst.resolveArray tallies "[[LLedger;" = (.ok id, ledgerFirst) := by
    simp only [resolveArray, hlookup]
  obtain ⟨-, -, -, -, hclass, harray, -, hrefused, -⟩ := hreachable.memo_until_close lateCalls
  obtain ⟨cause, hcause, hkind, -⟩ := hrefused "Lost" hlost
  exact ⟨c, id, hc, hclass "Ledger" "Ledger" c _ hc rfl, hid, harray "[[LLedger;" id _ hid, cause, hcause, hkind⟩

end Session

end JvmAot
