import JvmAot.Proofs.Heap.Termination
import JvmAot.Proofs.Session.Data
import JvmAot.Proofs.Session.Closing
import Mathlib.Data.List.Chain

/-! # Resolution and compilation come to an end

The bounds that `resolveClass` and `compile` run under never show, if the loader has finitely many classes
(`Loader.BackedBy`). `Resolution` is how a class is resolved without a bound, with the depth of the recursion: each call
begins with one more name of the table in progress, so the depth is at most the number of these plus one. `Compilation`
is how a program is compiled without a bound: a class is resolved once, so the list that the loop runs along while it
grows is never longer than the table. The classes may extend each other in any way. A cycle is reported, exactly where
it closes (`Resolution.circular_iff`). -/

namespace JvmAot

/-- A loader has no other classes than those of a finite table. It does not follow superclasses, so the cycles among
them are not what it refuses a name for. -/
structure Loader.BackedBy (loader : Loader) (table : List (String × ClassFile)) : Prop where
  mem_table : ∀ {name file}, loader.load name = .ok file → (name, file) ∈ table
  length_le : table.length ≤ loader.limit
  not_circular : ∀ {name n}, loader.load name ≠ .error (Cause.circularSuperclass n : Failure)

/-- Classes from a table by name. -/
def Loader.ofClasses (table : List (String × ClassFile)) : Loader where
  load name :=
    match table.lookup name with
    | some file => .ok file
    | none => .error (Cause.classNotFound name : Failure)
  limit := table.length

theorem Loader.backedBy_ofClasses (table : List (String × ClassFile)) : (ofClasses table).BackedBy table where
  mem_table {name file} h := by
    simp only [ofClasses] at h
    split at h
    · rename_i found hlookup
      cases h
      obtain ⟨before, after, rfl, -⟩ := List.lookup_eq_some_iff.1 hlookup
      simp
    · cases h
  length_le := Nat.le_refl _
  not_circular {name n} h := by
    simp only [ofClasses] at h
    split at h <;> cases h

namespace Listing
variable {σ : Type} {t t' : Listing σ} {next : σ → Listing σ → Prop}

/-- A text and what comes after it, unless there is a failure. -/
inductive Then (t : Listing σ) (next : σ → Listing σ → Prop) : Listing σ → Prop
  | fails {failure : Failure} (h : t.failure = some failure) : t.Then next t
  | goesOn {t' : Listing σ} (h : t.failure = none) (hnext : next t.state t') : t.Then next (t'.prepend t.lines)

theorem then_iff {f : σ → Listing σ} (h : ∀ t', next t.state t' ↔ t' = f t.state) :
    t.Then next t' ↔ t' = t.andThen f := by
  unfold andThen
  constructor
  · intro hthen
    cases hthen with
    | fails hfails => rw [hfails]
    | goesOn hnone hnext => rw [hnone, (h _).1 hnext]
  · rintro rfl
    split
    · exact .fails ‹_›
    · exact .goesOn ‹_› ((h _).2 rfl)

end Listing

namespace Session

variable {loader : Loader} {table : List (String × ClassFile)} {s s' : Session} {name n m : String} {depth : Nat}
  {r : Except Failure ClassInfo × Session}

/-! ### Resolution without a bound -/

/-- How a class is resolved, with the number of calls that are in progress at a time. -/
inductive Resolution (loader : Loader) : Nat → String → Session → Except Failure ClassInfo × Session → Prop
  | array {name : String} {s : Session} (h : ClassName.isArray name) :
      Resolution loader 1 name s (.error (Cause.arrayAsClass name : Failure), s)
  | found {name : String} {s : Session} {c : ClassInfo} (hclass : ¬ ClassName.isArray name)
      (h : s.classes.find? (ClassName.slashed name) = some c) : Resolution loader 1 name s (.ok c, s)
  | closed {name : String} {s : Session} (hclass : ¬ ClassName.isArray name)
      (hfresh : s.classes.find? (ClassName.slashed name) = none) (h : s.isClosed) :
      Resolution loader 1 name s (.error (Cause.classResolutionClosed (ClassName.slashed name) : Failure), s)
  | circular {name : String} {s : Session} (hclass : ¬ ClassName.isArray name)
      (hfresh : s.classes.find? (ClassName.slashed name) = none) (hopen : ¬ s.isClosed)
      (h : ClassName.slashed name ∈ s.resolving) :
      Resolution loader 1 name s (.error (Cause.circularSuperclass (ClassName.slashed name) : Failure), s)
  | missing {name : String} {s : Session} {failure : Failure} (hclass : ¬ ClassName.isArray name)
      (hfresh : s.classes.find? (ClassName.slashed name) = none) (hopen : ¬ s.isClosed)
      (hacyclic : ClassName.slashed name ∉ s.resolving) (h : loader.load (ClassName.slashed name) = .error failure) :
      Resolution loader 1 name s (.error failure, s)
  | root {name : String} {s : Session} {file : ClassFile} (h : Begins loader (ClassName.slashed name) file s)
      (hsuper : file.superName = none) : Resolution loader 1 name s (s.define (ClassName.slashed name) file none)
  | superFails {depth : Nat} {name superName : String} {s s' : Session} {file : ClassFile} {failure : Failure}
      (h : Begins loader (ClassName.slashed name) file s) (hsuper : file.superName = some superName)
      (hcall : Resolution loader depth superName { s with resolving := ClassName.slashed name :: s.resolving }
        (.error failure, s')) :
      Resolution loader (depth + 1) name s (.error failure, { s' with resolving := s.resolving })
  | derived {depth : Nat} {name superName : String} {s s' : Session} {file : ClassFile} {super : ClassInfo}
      (h : Begins loader (ClassName.slashed name) file s) (hsuper : file.superName = some superName)
      (hcall : Resolution loader depth superName { s with resolving := ClassName.slashed name :: s.resolving }
        (.ok super, s')) :
      Resolution loader (depth + 1) name s
        ({ s' with resolving := s.resolving }.define (ClassName.slashed name) file (some super))

/-- The number of names in the table that are not in progress. -/
def unstarted (table : List (String × ClassFile)) (s : Session) : Nat :=
  ((table.map Prod.fst).filter (· ∉ s.resolving)).length

theorem unstarted_le : s.unstarted table ≤ table.length := by
  simpa [unstarted] using List.length_filter_le (· ∉ s.resolving) (table.map Prod.fst)

/-- A call begins with one more name in progress. -/
theorem Begins.unstarted_lt {file : ClassFile} (hb : loader.BackedBy table) (h : Begins loader n file s) :
    unstarted table { s with resolving := n :: s.resolving } < s.unstarted table := by
  have hmem : n ∈ (table.map Prod.fst).filter (· ∉ s.resolving) := by
    have htable : n ∈ table.map Prod.fst := List.mem_map_of_mem (f := Prod.fst) (hb.mem_table h.load)
    exact List.mem_filter.2 ⟨htable, by simpa using h.acyclic⟩
  have hfilter : (table.map Prod.fst).filter (· ∉ n :: s.resolving) =
      ((table.map Prod.fst).filter (· ∉ s.resolving)).filter (· ≠ n) := by
    simp [List.filter_filter, not_or]
  rw [unstarted, hfilter]
  exact List.length_filter_lt_length_iff_exists.2 ⟨n, hmem, by simp⟩

/-- With a call for each name that is not in progress, and one more, resolution comes to its end. -/
theorem resolution_resolveClassWithin (hb : loader.BackedBy table) {fuel : Nat} (hfuel : s.unstarted table < fuel) :
    ∃ depth, Resolution loader depth name s (resolveClassWithin loader fuel name s) := by
  fun_induction resolveClassWithin loader fuel name s with
  | case1 => omega
  | case2 _ _ _ harray => exact ⟨1, .array harray⟩
  | case3 _ _ _ hclass _ _ hfound => exact ⟨1, .found hclass hfound⟩
  | case4 _ _ _ hclass _ hfresh hclosed => exact ⟨1, .closed hclass hfresh hclosed⟩
  | case5 _ _ _ hclass _ hfresh hopen hcircular =>
    exact ⟨1, .circular hclass hfresh hopen (List.contains_iff_mem.1 hcircular)⟩
  | case6 _ _ _ hclass _ hfresh hopen hacyclic _ hload =>
    exact ⟨1, .missing hclass hfresh hopen (by simpa using hacyclic) hload⟩
  | case7 _ name _ hclass _ hfresh hopen hacyclic file hload hsuper =>
    exact ⟨1, .root ⟨hfresh, hopen, by simpa using hacyclic, hload, by rwa [ClassName.isArray_slashed]⟩ hsuper⟩
  | case8 _ name s hclass full hfresh hopen hacyclic file hload superName hsuper failure s' heq ih =>
    have hbegins : Begins loader full file s :=
      ⟨hfresh, hopen, by simpa using hacyclic, hload, by rwa [ClassName.isArray_slashed]⟩
    have hless := hbegins.unstarted_lt hb
    obtain ⟨depth, hcall⟩ := ih (by omega)
    exact ⟨depth + 1, .superFails hbegins hsuper (heq ▸ hcall)⟩
  | case9 _ name s hclass full hfresh hopen hacyclic file hload superName hsuper super s' heq ih =>
    have hbegins : Begins loader full file s :=
      ⟨hfresh, hopen, by simpa using hacyclic, hload, by rwa [ClassName.isArray_slashed]⟩
    have hless := hbegins.unstarted_lt hb
    obtain ⟨depth, hcall⟩ := ih (by omega)
    exact ⟨depth + 1, .derived hbegins hsuper (heq ▸ hcall)⟩

namespace Resolution

/-- The calls in progress have different names, all of them in the table but that of the last call perhaps. -/
theorem depth_le (hb : loader.BackedBy table) (h : Resolution loader depth name s r) :
    depth ≤ s.unstarted table + 1 := by
  induction h with
  | array | found | closed | circular | missing | root => omega
  | superFails h _ _ ih | derived h _ _ ih =>
    have hless := h.unstarted_lt hb
    omega

theorem depth_pos (h : Resolution loader depth name s r) : 0 < depth := by
  cases h <;> omega

/-- A bound that is not less than the depth does not show. -/
theorem eq_resolveClassWithin (h : Resolution loader depth name s r) {fuel : Nat} (hfuel : depth ≤ fuel + 1) :
    r = resolveClassWithin loader (fuel + 1) name s := by
  induction h generalizing fuel with
  | array h => simp [resolveClassWithin, h]
  | found hclass h => simp [resolveClassWithin, hclass, h]
  | closed hclass hfresh h => simp [resolveClassWithin, hclass, hfresh, h]
  | circular hclass hfresh hopen h => simp [resolveClassWithin, hclass, hfresh, hopen, h]
  | missing hclass hfresh hopen hacyclic h => simp [resolveClassWithin, hclass, hfresh, hopen, hacyclic, h]
  | root h hsuper =>
    have hclass := ClassName.isArray_slashed _ ▸ h.isClass
    simp [resolveClassWithin, hclass, h.fresh, h.isOpen, h.acyclic, h.load, hsuper]
  | superFails h hsuper hcall ih | derived h hsuper hcall ih =>
    have hclass := ClassName.isArray_slashed _ ▸ h.isClass
    have hpos := hcall.depth_pos
    obtain ⟨fuel, rfl⟩ : ∃ k, fuel = k + 1 := ⟨fuel - 1, by omega⟩
    rw [resolveClassWithin]
    simp [hclass, h.fresh, h.isOpen, h.acyclic, h.load, hsuper, ← ih (Nat.le_of_succ_le_succ hfuel)]

theorem resolves (h : Resolution loader depth name s r) : Resolves loader name s r := by
  induction h with
  | array h => exact .fails (.array h)
  | found _ h => exact .found h
  | closed _ hfresh h => exact .fails (.closed hfresh h)
  | circular _ hfresh _ h => exact .fails (.circular hfresh h)
  | missing _ hfresh _ _ h => exact .fails (.missing hfresh h)
  | root h hsuper => exact .root h hsuper
  | superFails h hsuper _ ih => exact .superFails h hsuper ih
  | derived h hsuper _ ih => exact .derived h hsuper ih

end Resolution

/-! ### Cycles -/

/-- The next class on the way up from the class `n`, which has to be loaded first. -/
def Leads (loader : Loader) (s : Session) (n m : String) : Prop :=
  SuperOf loader n m ∧ s.classes.find? n = none ∧ ¬ ClassName.isArray n

/-- The way up from the class `n` leads over different classes and then back to `m`, which is one of them. -/
def LeadsBack (loader : Loader) (s : Session) (n m : String) : Prop :=
  ∃ visited : List String, visited.head? = some n ∧ (visited ++ [m]).IsChain (Leads loader s) ∧ visited.Nodup ∧
    m ∈ visited

/-- The way up from the class `n` leads over different classes, none of which is `behind`, and then to `m`, which is
one of them or `behind`. -/
def LeadsInto (loader : Loader) (s : Session) (behind : List String) (n m : String) : Prop :=
  ∃ visited : List String, (visited ++ [m]).head? = some n ∧ (visited ++ [m]).IsChain (Leads loader s) ∧
    visited.Nodup ∧ visited.Disjoint behind ∧ m ∈ visited ++ behind

variable {behind : List String}

theorem leadsInto_nil : LeadsInto loader s [] n m ↔ LeadsBack loader s n m := by
  refine exists_congr fun visited => ?_
  cases visited with
  | nil => simp
  | cons => simp

theorem leadsInto_of_mem (hn : n ∈ behind) : LeadsInto loader s behind n m ↔ m = n := by
  constructor
  · rintro ⟨visited, hhead, -, -, hdisjoint, -⟩
    cases visited with
    | nil => exact Option.some.inj hhead
    | cons k rest =>
      obtain rfl : k = n := Option.some.inj hhead
      exact absurd hn (hdisjoint (List.mem_cons_self ..))
  · rintro rfl
    exact ⟨[], rfl, .singleton _, .nil, List.disjoint_nil_left _, hn⟩

/-- From a class that is not behind, the way goes on with its superclass. -/
theorem leadsInto_of_not_mem (hn : n ∉ behind) :
    LeadsInto loader s behind n m ↔ ∃ k, Leads loader s n k ∧ LeadsInto loader s (n :: behind) k m := by
  constructor
  · rintro ⟨visited, hhead, hchain, hnodup, hdisjoint, hmem⟩
    cases visited with
    | nil =>
      obtain rfl : m = n := Option.some.inj hhead
      exact absurd hmem hn
    | cons k rest =>
      obtain rfl : k = n := Option.some.inj hhead
      obtain ⟨next, hnext⟩ : ∃ next, (rest ++ [m]).head? = some next := by cases rest <;> simp
      obtain ⟨hleads, hchain⟩ := List.isChain_cons.1 hchain
      obtain ⟨hfresh, hnodup⟩ := List.nodup_cons.1 hnodup
      refine ⟨next, hleads next hnext, rest, hnext, hchain, hnodup, ?_, ?_⟩
      · exact List.disjoint_cons_right.2 ⟨hfresh, (List.disjoint_cons_left.1 hdisjoint).2⟩
      · simp only [List.mem_append, List.mem_cons] at hmem ⊢
        tauto
  · rintro ⟨next, hleads, rest, hnext, hchain, hnodup, hdisjoint, hmem⟩
    obtain ⟨hfresh, hdisjoint⟩ := List.disjoint_cons_right.1 hdisjoint
    refine ⟨n :: rest, rfl, List.isChain_cons.2 ⟨fun k hk => ?_, hchain⟩, List.nodup_cons.2 ⟨hfresh, hnodup⟩,
      List.disjoint_cons_left.2 ⟨hn, hdisjoint⟩, ?_⟩
    · obtain rfl : next = k := Option.some.inj (hnext.symm.trans hk)
      exact hleads
    · simp only [List.mem_append, List.mem_cons] at hmem ⊢
      tauto

theorem not_leadsInto (hn : n ∉ behind) (hstop : ∀ k, ¬ Leads loader s n k) : ¬ LeadsInto loader s behind n m := by
  rw [leadsInto_of_not_mem hn]
  rintro ⟨k, hleads, -⟩
  exact hstop k hleads

theorem Leads.eq_slashed {superName : String} {file : ClassFile} (h : Leads loader s n m)
    (hload : loader.load n = .ok file) (hsuper : file.superName = some superName) :
    m = ClassName.slashed superName := by
  obtain ⟨⟨file', superName', hload', hsuper', rfl⟩, -, -⟩ := h
  obtain rfl : file = file' := Except.ok.inj (hload.symm.trans hload')
  obtain rfl : superName = superName' := Option.some.inj (hsuper.symm.trans hsuper')
  rfl

/-- A class that begins to be resolved is followed by its superclass. -/
theorem Begins.leadsInto_iff {file : ClassFile} {superName : String} (h : Begins loader n file s)
    (hsuper : file.superName = some superName) :
    LeadsInto loader s s.resolving n m ↔ LeadsInto loader s (n :: s.resolving) (ClassName.slashed superName) m := by
  rw [leadsInto_of_not_mem h.acyclic]
  constructor
  · rintro ⟨k, hleads, hinto⟩
    rwa [← hleads.eq_slashed h.load hsuper]
  · intro hinto
    exact ⟨_, ⟨⟨file, superName, h.load, hsuper, rfl⟩, h.fresh, h.isClass⟩, hinto⟩

theorem define_not_circular {file : ClassFile} {super : Option ClassInfo} (hopen : ¬ s.isClosed) :
    (s.define name file super).1 ≠ .error (Cause.circularSuperclass m : Failure) := by
  intro h
  exact Bool.noConfusion (define_unreadable hopen h).isOfLowering

/-- In an open session, resolution reports a cycle if and only if the way up leads back to a class that was on it. -/
theorem Resolution.circular_iff (hb : loader.BackedBy table) (h : Resolution loader depth name s r)
    (hopen : ¬ s.isClosed) (hresolving : ∀ k ∈ s.resolving, s.classes.find? k = none ∧ ¬ ClassName.isArray k) :
    r.1 = .error (Cause.circularSuperclass m : Failure) ↔
      LeadsInto loader s s.resolving (ClassName.slashed name) m := by
  induction h with
  | array h =>
    have harray := (ClassName.isArray_slashed _).symm ▸ h
    refine iff_of_false (by simp) (not_leadsInto (fun hmem => (hresolving _ hmem).2 harray) ?_)
    exact fun k hleads => hleads.2.2 harray
  | found _ h =>
    refine iff_of_false (by simp) (not_leadsInto (fun hmem => ?_) fun k hleads => ?_)
    · exact Option.some_ne_none _ (h.symm.trans (hresolving _ hmem).1)
    · exact Option.some_ne_none _ (h.symm.trans hleads.2.1)
  | closed _ _ h => exact absurd h hopen
  | circular _ _ _ h =>
    rw [leadsInto_of_mem h]
    simp [eq_comm]
  | missing _ _ _ hacyclic h =>
    refine iff_of_false (fun heq => hb.not_circular (Except.error.inj heq ▸ h)) (not_leadsInto hacyclic ?_)
    rintro k ⟨⟨file, -, hload, -⟩, -⟩
    cases h.symm.trans hload
  | root h hsuper =>
    refine iff_of_false (define_not_circular hopen) (not_leadsInto h.acyclic ?_)
    rintro k ⟨⟨file, superName, hload, hsuper', -⟩, -⟩
    obtain rfl := Except.ok.inj (h.load.symm.trans hload)
    cases hsuper.symm.trans hsuper'
  | superFails h hsuper _ ih =>
    rw [h.leadsInto_iff hsuper]
    exact ih hopen (List.forall_mem_cons.2 ⟨⟨h.fresh, h.isClass⟩, hresolving⟩)
  | @derived _ _ _ s s' _ _ h hsuper hcall ih =>
    have hopen' : ¬ s'.isClosed := hcall.resolves.changes.steps.isOpen hopen
    refine iff_of_false (define_not_circular (s := { s' with resolving := s.resolving }) hopen') ?_
    rw [h.leadsInto_iff hsuper]
    intro hinto
    cases (ih hopen (List.forall_mem_cons.2 ⟨⟨h.fresh, h.isClass⟩, hresolving⟩)).2 hinto

/-- Closed sessions resolve nothing, so they find no cycle. -/
theorem Resolution.not_circular (h : Resolution loader depth name s r) (hclosed : s.isClosed) :
    r.1 ≠ .error (Cause.circularSuperclass m : Failure) := by
  cases h with
  | array | found | closed => simp
  | circular _ _ hopen | missing _ _ hopen => exact absurd hclosed hopen
  | root h | superFails h | derived h => exact absurd hclosed h.isOpen

/-! ### Compilation without a bound -/

/-- The texts of the classes from number `next` of the resolution order on, including those that are resolved
meanwhile. -/
inductive CompilesFrom (loader : Loader) : Nat → Session → Listing Session → Prop
  | done {next : Nat} {s : Session} (h : s.classes.order[next]? = none) :
      CompilesFrom loader next s { lines := [], failure := none, state := s }
  | fails {next : Nat} {s : Session} {c : ClassInfo} {failure : Failure} (h : s.classes.order[next]? = some c)
      (hfails : (s.compileClass loader c).failure = some failure) :
      CompilesFrom loader next s (s.compileClass loader c)
  | next {next : Nat} {s : Session} {c : ClassInfo} {t : Listing Session} (h : s.classes.order[next]? = some c)
      (hdone : (s.compileClass loader c).failure = none)
      (hrest : CompilesFrom loader (next + 1) (s.compileClass loader c).state t) :
      CompilesFrom loader next s (t.prepend (s.compileClass loader c).lines)

theorem compilesFrom_of_some {next : Nat} {c : ClassInfo} {t : Listing Session}
    (hclass : s.classes.order[next]? = some c) :
    CompilesFrom loader next s t ↔ (s.compileClass loader c).Then (CompilesFrom loader (next + 1)) t := by
  constructor
  · intro h
    cases h with
    | done hnone => cases hclass.symm.trans hnone
    | fails hsome hfails =>
      cases hclass.symm.trans hsome
      exact .fails hfails
    | next hsome hdone hrest =>
      cases hclass.symm.trans hsome
      exact .goesOn hdone hrest
  · intro h
    cases h with
    | fails hfails => exact .fails hclass hfails
    | goesOn hdone hrest => exact .next hclass hdone hrest

/-- The data that follows the code, the objects of which can be written to the end. -/
def Writes (loader : Loader) (s : Session) (t : Listing Session) : Prop :=
  (let s := (aliasLines s.classes.order s).2
   let e : Emission := { heap := s.heap, labels := s.labels }
   Emission.Emits (s.objectResolver loader) 0 e (Emission.all (s.objectResolver loader) e)) ∧
  t = s.dataLines loader

/-- How a program is compiled. The names on the way are resolved in sessions that calls and compilations lead to, so these
resolutions end too. -/
def Compilation (loader : Loader) (prologue : ByteArray) (entry : String) (s : Session) (t : Listing Session) : Prop :=
  ∃ text : Listing Session, t = text.prepend [.raw prologue] ∧
    match s.bootstrap loader with
    | (.error failure, s) => text = .fail failure s
    | (.ok _, s) =>
      match s.resolveClass loader entry with
      | (.error failure, s) => text = .fail failure s
      | (.ok c, s) =>
        ∃ code, (s.compileClass loader c).Then (CompilesFrom loader 0) code ∧
          code.Then (fun s => s.close.Writes loader) text

/-! ### Sessions that calls and compilations lead to -/

namespace Reached

theorem resolving_eq (h : s.Reached loader) : s.resolving = [] := by
  induction h with
  | start => rfl
  | step _ hstep ih =>
    cases hstep with
    | change hchange => exact hchange.resolving_eq.trans ih
    | string => rw [stringObject_frame]; exact ih
    | label | fill => exact ih
  | close _ ih | mark _ _ ih | emit _ _ ih => exact ih

theorem proper (h : s.Reached loader) : s.labels.Proper := by
  induction h with
  | start => exact .empty
  | step _ hstep ih => exact hstep.proper ih
  | close _ ih | mark _ _ ih => exact ih
  | emit _ he ih => exact he ▸ Emission.proper_run ih _ _

/-- Each class was loaded under its own name. -/
theorem length_order_le (hb : loader.BackedBy table) (h : s.Reached loader) :
    s.classes.order.length ≤ table.length := by
  have hsubset : s.classes.order.map (·.name) ⊆ table.map Prod.fst := by
    intro n hn
    obtain ⟨c, hc, rfl⟩ := List.mem_map.1 hn
    obtain ⟨file, super, hbuilds⟩ := h.linked.builds c (ClassTable.mem_order.1 hc)
    exact List.mem_map_of_mem (f := Prod.fst) (hb.mem_table hbuilds.load)
  simpa using (h.linked.ordered.nodup_order.subperm hsubset).length_le

/-- The loop has a class of the table for each of its turns, and one turn more to see that there are no further ones. -/
theorem compilesFrom_iff (hb : loader.BackedBy table) (h : s.Reached loader) {fuel next : Nat}
    (hnext : next ≤ s.classes.order.length) (hfuel : table.length < fuel + next) {t : Listing Session} :
    CompilesFrom loader next s t ↔ t = s.compileFrom loader fuel next := by
  induction fuel generalizing next s t with
  | zero =>
    have hlength := h.length_order_le hb
    omega
  | succ fuel ih =>
    rw [Session.compileFrom]
    cases hclass : s.classes.order[next]? with
    | none =>
      constructor
      · intro hfrom
        cases hfrom with
        | done => rfl
        | fails hsome | next hsome => cases hclass.symm.trans hsome
      · rintro rfl
        exact .done hclass
    | some c =>
      have hlt := (List.getElem?_eq_some_iff.1 hclass).1
      have hc : c ∈ s.classes.latest := ClassTable.mem_order.1 (List.mem_of_getElem? hclass)
      obtain ⟨names, hsteps⟩ := steps_compileClass loader hc
      have hgrows : s.classes.latest.length ≤ (s.compileClass loader c).state.classes.latest.length :=
        hsteps.latest_suffix.length_le
      simp only [ClassTable.order, List.length_reverse] at hlt
      rw [compilesFrom_of_some hclass]
      refine Listing.then_iff fun t' => ih (h.compileClass hc) ?_ (by omega)
      simp only [ClassTable.order, List.length_reverse]
      omega

theorem writes_iff (h : s.Reached loader) {t : Listing Session} : s.Writes loader t ↔ t = s.dataLines loader := by
  refine and_iff_right ?_
  have hproper := (h.steps (steps_aliasLines s.classes.order s)).proper
  exact (Emission.emits_iff (makesStrings_objectResolver _ _) hproper).2 rfl

theorem compilation_iff (hb : loader.BackedBy table) (h : s.Reached loader) {prologue : ByteArray} {entry : String}
    {t : Listing Session} : Compilation loader prologue entry s t ↔ t = s.compile loader prologue entry := by
  have hboot := h.steps (changes_bootstrap loader s).steps
  unfold Compilation Session.compile
  rcases hstart : s.bootstrap loader with ⟨failure | ⟨⟩, s₁⟩
  · simp only [exists_eq_right]
  rw [hstart] at hboot
  rcases hentry : s₁.resolveClass loader entry with ⟨failure | c, s₂⟩
  · simp only [hentry, exists_eq_right]
  have hc : c ∈ s₂.classes.latest := ClassTable.mem_of_find? (find?_of_resolveClass hentry)
  have hfirst := (hboot.steps (changes_resolveClass hentry).steps).compileClass hc
  have hall := Listing.state_andThen (P := Reached loader) hfirst (hfirst.compileFrom (loader.limit + 1) 0)
  have hcode (code : Listing Session) : (s₂.compileClass loader c).Then (CompilesFrom loader 0) code ↔
      code = (s₂.compileClass loader c).andThen (Session.compileFrom loader (loader.limit + 1) 0) :=
    Listing.then_iff fun t => hfirst.compilesFrom_iff hb (Nat.zero_le _) (Nat.lt_succ_of_le hb.length_le)
  have hdata (text : Listing Session) :
      Listing.Then ((s₂.compileClass loader c).andThen (Session.compileFrom loader (loader.limit + 1) 0))
        (fun s => s.close.Writes loader) text ↔ text = _ :=
    Listing.then_iff (f := fun s => s.close.dataLines loader) fun t => hall.close.writes_iff
  simp only [hentry, hcode, exists_eq_left, hdata, exists_eq_right]

/-- In every session, with a loader that has finitely many classes, which may extend each other in any way: a class
name is resolved in one way, in which at most one call more than there are classes is in progress at a time. The
resolution reports a cycle if and only if the session is open and the way up, over classes that it has not resolved yet,
leads back to the class that the report names. A program is compiled in one way, after which there are no more classes
than the loader has. -/
theorem comes_to_an_end (hb : loader.BackedBy table) (h : s.Reached loader) :
    (∀ name, (∃ depth ≤ table.length + 1, Resolution loader depth name s (s.resolveClass loader name)) ∧
      ∀ depth r, Resolution loader depth name s r → depth ≤ table.length + 1 ∧ r = s.resolveClass loader name) ∧
    (∀ name m, (s.resolveClass loader name).1 = .error (Cause.circularSuperclass m : Failure) ↔
      ¬ s.isClosed ∧ LeadsBack loader s (ClassName.slashed name) m) ∧
    ∀ prologue entry, (∀ t, Compilation loader prologue entry s t ↔ t = s.compile loader prologue entry) ∧
      (s.compile loader prologue entry).state.classes.order.length ≤ table.length := by
  have hunstarted : s.unstarted table ≤ table.length := unstarted_le
  have hlimit := hb.length_le
  have hends (name : String) : ∃ depth, Resolution loader depth name s (s.resolveClass loader name) :=
    resolution_resolveClassWithin hb (by omega)
  have hdepth {name : String} {depth : Nat} {r : Except Failure ClassInfo × Session}
      (hr : Resolution loader depth name s r) : depth ≤ table.length + 1 :=
    Nat.le_trans (hr.depth_le hb) (by omega)
  refine ⟨fun name => ⟨?_, fun depth r hr => ⟨hdepth hr, hr.eq_resolveClassWithin ?_⟩⟩, fun name m => ?_,
    fun prologue entry => ⟨fun t => h.compilation_iff hb, (h.compile prologue entry).length_order_le hb⟩⟩
  · obtain ⟨depth, hr⟩ := hends name
    exact ⟨depth, hdepth hr, hr⟩
  · have := hdepth hr
    omega
  · obtain ⟨depth, hr⟩ := hends name
    by_cases hclosed : s.isClosed
    · exact iff_of_false (hr.not_circular hclosed) fun hback => hback.1 hclosed
    · rw [hr.circular_iff hb hclosed (by simp [h.resolving_eq]), h.resolving_eq, leadsInto_nil]
      exact (and_iff_right hclosed).symm

end Reached

/-- Classes that extend each other and themselves, a class that is not there, and an array. -/
def knot : List (String × ClassFile) :=
  [("java/lang/Object", fileOf "java/lang/Object" none [⟨⟨0⟩, "vtable", "Ljava/lang/Object;"⟩]),
    ("java/lang/Array", fileOf "java/lang/Array" (some "java/lang/Object") [⟨⟨0⟩, "length", "I"⟩]),
    ("java/lang/String", fileOf "java/lang/String" (some "java/lang/Object") [⟨⟨0⟩, "value", "[C"⟩]),
    ("Tail", fileOf "Tail" (some "Left") []), ("Left", fileOf "Left" (some "Right") []),
    ("Right", fileOf "Right" (some "Left") []), ("Self", fileOf "Self" (some "Self") []),
    ("Orphan", fileOf "Orphan" (some "Lost") []), ("Row", fileOf "Row" (some "[I") [])]

/-- From the tail, the way up leads into the loop behind it. From the other classes it ends. -/
theorem knot_comes_to_an_end :
    let s := (({} : Session).resolveClass (.ofClasses knot) "java.lang.String").2
    s.classes.order.length = 2 ∧ ¬ s.isClosed ∧ LeadsBack (.ofClasses knot) s "Tail" "Left" ∧
      LeadsBack (.ofClasses knot) s "Self" "Self" ∧ (∀ m, ¬ LeadsBack (.ofClasses knot) s "Orphan" m) ∧
      (∀ m, ¬ LeadsBack (.ofClasses knot) s "Row" m) ∧
      (∃ depth ≤ 10, Resolution (.ofClasses knot) depth "Tail" s
        (.error (Cause.circularSuperclass "Left" : Failure), s)) ∧
      (s.compile (.ofClasses knot) ⟨#[]⟩ "Right").state.classes.order.length ≤ 9 := by
  intro s
  have hs : s.Reached (.ofClasses knot) := (Reachable.start.resolveClass _).reached
  obtain ⟨hends, hcircular, hcompile⟩ := hs.comes_to_an_end (Loader.backedBy_ofClasses knot)
  have htail : s.resolveClass (.ofClasses knot) "Tail" = (.error (Cause.circularSuperclass "Left" : Failure), s) := by
    decide +kernel
  have hself : s.resolveClass (.ofClasses knot) "Self" = (.error (Cause.circularSuperclass "Self" : Failure), s) := by
    decide +kernel
  have horphan : s.resolveClass (.ofClasses knot) "Orphan" = (.error (Cause.classNotFound "Lost" : Failure), s) := by
    decide +kernel
  have hrow : s.resolveClass (.ofClasses knot) "Row" = (.error (Cause.arrayAsClass "[I" : Failure), s) := by
    decide +kernel
  have hopen : ¬ s.isClosed := by decide +kernel
  have hback {name m : String} (hname : ClassName.slashed name = name) : LeadsBack (.ofClasses knot) s name m ↔
      (s.resolveClass (.ofClasses knot) name).1 = .error (Cause.circularSuperclass m : Failure) := by
    rw [hcircular, hname, and_iff_right hopen]
  refine ⟨by decide +kernel, hopen, (hback (by decide +kernel)).2 (by rw [htail]),
    (hback (by decide +kernel)).2 (by rw [hself]), fun m => ?_, fun m => ?_, htail ▸ (hends "Tail").1,
    (hcompile _ _).2⟩
  · rw [hback (by decide +kernel), horphan]
    simp
  · rw [hback (by decide +kernel), hrow]
    simp

end Session

end JvmAot
