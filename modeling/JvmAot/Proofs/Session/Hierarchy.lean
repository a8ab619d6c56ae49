import JvmAot.Session.ClassTable

/-! # Superclasses come first

`ClassTable.Ordered`: no name occurs twice in a class table, and the superclass of a class was there before
the class. The superclasses of a class are then all found, each by its own name, and stay the same when
classes are added. -/

namespace JvmAot.ClassTable

variable {t : ClassTable} {c d : ClassInfo} {older : List ClassInfo} {name : String} {name? : Option String}

/-! ### Looking up -/

theorem mem_order : c ∈ t.order ↔ c ∈ t.latest :=
  List.mem_reverse

theorem mem_of_find? (h : t.find? name = some c) : c ∈ t.latest :=
  List.mem_of_find?_eq_some h

theorem name_of_find? (h : t.find? name = some c) : c.name = name := by
  simpa using List.find?_some h

theorem find?_eq_none : t.find? name = none ↔ ∀ c ∈ t.latest, c.name ≠ name := by
  simp [find?]

theorem find?_insert (t : ClassTable) (c : ClassInfo) (name : String) :
    (t.insert c).find? name = if c.name = name then some c else t.find? name := by
  by_cases h : c.name = name <;> simp [find?, insert, h]

/-! ### Chains -/

@[simp] theorem chainIn_none (classes : List ClassInfo) : chainIn classes none = [] := by
  unfold chainIn; rfl

theorem chainIn_cons_self : chainIn (c :: older) (some c.name) = c :: chainIn older c.superName := by
  simp [chainIn]

theorem chainIn_cons_of_ne (h : ∀ n, name? = some n → c.name ≠ n) :
    chainIn (c :: older) name? = chainIn older name? := by
  cases name? with
  | none => simp
  | some n => simp [chainIn, h n rfl]

theorem chainIn_sublist (classes : List ClassInfo) (name? : Option String) :
    List.Sublist (chainIn classes name?) classes := by
  induction classes generalizing name? with
  | nil => cases name? <;> exact List.Sublist.refl _
  | cons d older ih =>
    cases name? with
    | none => exact List.nil_sublist _
    | some n =>
      rw [chainIn]
      split
      · exact (ih _).cons_cons d
      · exact (ih _).cons d

theorem mem_of_mem_chain (hc : c ∈ t.latest) (hd : d ∈ t.chain c) : d ∈ t.latest := by
  rcases List.mem_cons.1 hd with rfl | hd
  · exact hc
  · exact (chainIn_sublist ..).subset hd

/-- Of classes with the latest one first: names are distinct, and superclasses come before subclasses. -/
def Ordered : List ClassInfo → Prop
  | [] => True
  | c :: older =>
    ((∀ d ∈ older, d.name ≠ c.name) ∧ ∀ n, c.superName = some n → ∃ super ∈ older, super.name = n) ∧
      Ordered older

namespace Ordered

theorem super_mem {classes : List ClassInfo} (h : Ordered classes) (hc : c ∈ classes)
    (hn : c.superName = some name) : ∃ super ∈ classes, super.name = name := by
  induction classes with
  | nil => cases hc
  | cons d older ih =>
    obtain ⟨⟨-, hsuper⟩, holder⟩ := h
    obtain ⟨super, hmem, hname⟩ : ∃ super ∈ older, super.name = name := by
      rcases List.mem_cons.1 hc with rfl | hc
      · exact hsuper name hn
      · exact ih holder hc
    exact ⟨super, List.mem_cons_of_mem _ hmem, hname⟩

theorem find?_name (h : Ordered t.latest) (hc : c ∈ t.latest) : t.find? c.name = some c := by
  obtain ⟨classes⟩ := t
  induction classes with
  | nil => cases hc
  | cons d older ih =>
    have hfind := find?_insert ⟨older⟩ d c.name
    rcases List.mem_cons.1 hc with rfl | hc
    · rwa [if_pos rfl] at hfind
    · rw [if_neg (h.1.1 c hc).symm] at hfind
      exact hfind.trans (ih h.2 hc)

theorem nodup_names {classes : List ClassInfo} (h : Ordered classes) : (classes.map (·.name)).Nodup := by
  induction classes with
  | nil => exact List.nodup_nil
  | cons d older ih =>
    refine List.nodup_cons.2 ⟨fun hmem => ?_, ih h.2⟩
    obtain ⟨k, hk, hname⟩ := List.mem_map.1 hmem
    exact h.1.1 k hk hname

theorem nodup_order (h : Ordered t.latest) : (t.order.map (·.name)).Nodup := by
  rw [order, List.map_reverse]
  exact (List.reverse_perm _).symm.nodup h.nodup_names

/-- Below a class that came later, the superclasses of a class are what they were. -/
theorem chainIn_cons_superName (h : Ordered (d :: older)) (hc : c ∈ d :: older) :
    chainIn (d :: older) c.superName = chainIn older c.superName := by
  obtain ⟨⟨hfresh, hsuper⟩, holder⟩ := h
  refine chainIn_cons_of_ne fun n hn => ?_
  obtain ⟨super, hmem, rfl⟩ : ∃ super ∈ older, super.name = n := by
    rcases List.mem_cons.1 hc with rfl | hc
    · exact hsuper n hn
    · exact holder.super_mem hc hn
  exact (hfresh super hmem).symm

theorem chainIn_name {classes : List ClassInfo} (h : Ordered classes) (hc : c ∈ classes) :
    chainIn classes (some c.name) = c :: chainIn classes c.superName := by
  induction classes with
  | nil => cases hc
  | cons d older ih =>
    rw [h.chainIn_cons_superName hc]
    rcases List.mem_cons.1 hc with rfl | hc
    · exact chainIn_cons_self
    · rw [chainIn_cons_of_ne fun n hn => ?_]
      · exact ih h.2 hc
      · cases hn
        exact (h.1.1 c hc).symm

/-- The chain of a class goes on with that of its superclass. -/
theorem chain_eq {super : ClassInfo} (h : Ordered t.latest) (hsuper : super ∈ t.latest)
    (hn : c.superName = some super.name) : t.chain c = c :: t.chain super := by
  rw [chain, hn, h.chainIn_name hsuper, chain]

/-- What passes from superclasses to subclasses holds of all classes. -/
theorem induct_chain {P : ClassInfo → Prop} (h : Ordered t.latest)
    (hclass : ∀ c ∈ t.latest, (∀ super ∈ t.latest, c.superName = some super.name → P super) → P c)
    (hc : c ∈ t.latest) : P c := by
  induction hn : (t.chain c).length generalizing c with
  | zero => cases hn
  | succ n ih =>
    refine hclass c hc fun super hsuper hname => ih hsuper ?_
    rw [h.chain_eq hsuper hname] at hn
    exact Nat.succ.inj hn

/-- No name occurs twice in a chain. -/
theorem nodup_chain (h : Ordered t.latest) (hc : c ∈ t.latest) : ((t.chain c).map (·.name)).Nodup := by
  rw [chain, ← h.chainIn_name hc]
  exact ((chainIn_sublist ..).map _).nodup h.nodup_names

theorem chain_insert (h : Ordered (t.insert d).latest) (hc : c ∈ (t.insert d).latest) :
    (t.insert d).chain c = t.chain c := by
  rw [chain, chain]
  exact congrArg _ (h.chainIn_cons_superName hc)

end Ordered

theorem chain_of_superName_eq_none (h : c.superName = none) : t.chain c = [c] := by
  rw [chain, h, chainIn_none]

end JvmAot.ClassTable
