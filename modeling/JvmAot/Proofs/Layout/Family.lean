import JvmAot.Failure
import Mathlib.Data.List.Induction
import Mathlib.Logic.Relation

/-! # Families of allocators

An allocator gives something out whenever it is asked, until it is sealed; what it was sealed to can be continued by
any number of new allocators. A family is the allocators that some calls have made, each with what it has given out,
and `AllocatorScheme.Moves` says all that one call can do to it. What is sealed stays as it is, so a property that
relates an allocator to the one it continues can only be lost by what it gives out itself (`Passes.run`). -/

namespace JvmAot

/-- How allocators of one sort are made, asked for something and sealed. -/
structure AllocatorScheme (β σ ρ α : Type) where
  /-- A new allocator that continues no other one. -/
  new : β
  /-- A new allocator that continues what another one was sealed to. -/
  child : Option σ → Except Failure β
  /-- Gives out what is asked for. -/
  serve : ρ → β → Except Failure (α × β)
  /-- Ends allocation. -/
  finish : β → Except Failure (σ × β)

namespace AllocatorScheme

/-- An allocator with its past. -/
structure Member (β σ ρ α : Type) where
  state : β
  /-- The number of the allocator that it continues. -/
  parent : Option Nat := none
  /-- What was given out before it was made, by the allocator that it continues and by those before. -/
  inherited : List (ρ × α) := []
  /-- What it has given out, in order. -/
  given : List (ρ × α) := []
  /-- What it was sealed to. -/
  result : Option σ := none
  deriving DecidableEq, Repr

/-- Allocators, numbered in the order in which they were made. -/
abbrev Family (β σ ρ α : Type) := List (Member β σ ρ α)

/-- A call to a new allocator or to one of a family. -/
inductive Call (ρ : Type) where
  | new
  | child (parent : Nat)
  | serve (number : Nat) (request : ρ)
  | finish (number : Nat)
  deriving DecidableEq, Repr

/-- The number of the allocator that is called, if it is there already. -/
def Call.target {ρ : Type} : Call ρ → Option Nat
  | .new | .child _ => none
  | .serve number _ | .finish number => some number

variable {β σ ρ α : Type} {k : AllocatorScheme β σ ρ α} {f f' : Family β σ ρ α} {m : Member β σ ρ α} {i : Nat}
  {call : Call ρ}

/-- All that an allocator and those before it have given out, in order. -/
def Member.all (m : Member β σ ρ α) : List (ρ × α) :=
  m.inherited ++ m.given

/-- The allocator that continues `m`, which has the number `p`. -/
def Member.heir (m : Member β σ ρ α) (p : Nat) (state : β) : Member β σ ρ α :=
  { state, parent := some p, inherited := m.all }

/-- The allocator after it has given something out. -/
def Member.gives (m : Member β σ ρ α) (request : ρ) (answer : α) (state : β) : Member β σ ρ α :=
  { m with state, given := m.given ++ [(request, answer)] }

/-- The allocator after it was sealed. -/
def Member.closes (m : Member β σ ρ α) (result : σ) (state : β) : Member β σ ρ α :=
  { m with state, result := some result }

/-- The allocator with a given number does something. -/
def update (f : Family β σ ρ α) (number : Nat) (act : Member β σ ρ α → Except Failure (Member β σ ρ α)) :
    Except Failure (Family β σ ρ α) :=
  match f[number]? with
  | some m => (act m).map (f.set number)
  | none => .error (Cause.absent "no such allocator" : Failure)

/-- The family after a call that succeeds. An allocator that is not there was not sealed either. -/
def step (k : AllocatorScheme β σ ρ α) (f : Family β σ ρ α) : Call ρ → Except Failure (Family β σ ρ α)
  | .new => .ok (f ++ [{ state := k.new }])
  | .child p =>
    match f[p]? with
    | some m => (k.child m.result).map fun state => f ++ [m.heir p state]
    | none => (k.child none).map fun state => f ++ [{ state }]
  | .serve i request =>
    update f i fun m => (k.serve request m.state).map fun (answer, state) => m.gives request answer state
  | .finish i => update f i fun m => (k.finish m.state).map fun (result, state) => m.closes result state

/-- The family after a call, whether or not it succeeds. -/
def after (k : AllocatorScheme β σ ρ α) (f : Family β σ ρ α) (call : Call ρ) : Family β σ ρ α :=
  match k.step f call with
  | .ok f' => f'
  | .error _ => f

/-- The family that some calls make. -/
def run (k : AllocatorScheme β σ ρ α) (calls : List (Call ρ)) : Family β σ ρ α :=
  calls.foldl k.after []

theorem run_concat (calls : List (Call ρ)) (call : Call ρ) : k.run (calls ++ [call]) = k.after (k.run calls) call :=
  List.foldl_append

/-- An allocator gives nothing out any more. -/
structure Refuses (k : AllocatorScheme β σ ρ α) (state : β) : Prop where
  serve : ∀ request, ∃ failure, k.serve request state = .error failure
  finish : ∃ failure, k.finish state = .error failure

/-- Only what was sealed can be continued, and what is sealed gives nothing out. -/
structure Lawful (k : AllocatorScheme β σ ρ α) : Prop where
  child : ∃ failure, k.child none = .error failure
  finish : ∀ {state result state'}, k.finish state = .ok (result, state') → k.Refuses state'

/-! ### What one call does -/

/-- All that a call can do to a family. -/
inductive Moves (k : AllocatorScheme β σ ρ α) (f : Family β σ ρ α) : Call ρ → Family β σ ρ α → Prop
  | fails {call : Call ρ} {failure : Failure} (h : k.step f call = .error failure) : Moves k f call f
  | new : Moves k f .new (f ++ [{ state := k.new }])
  | child {p : Nat} {m : Member β σ ρ α} {result : σ} {state : β} (hm : f[p]? = some m)
      (hresult : m.result = some result) (hstate : k.child (some result) = .ok state) :
      Moves k f (.child p) (f ++ [m.heir p state])
  | serve {i : Nat} {request : ρ} {m : Member β σ ρ α} {answer : α} {state : β} (hm : f[i]? = some m)
      (hserve : k.serve request m.state = .ok (answer, state)) :
      Moves k f (.serve i request) (f.set i (m.gives request answer state))
  | finish {i : Nat} {m : Member β σ ρ α} {result : σ} {state : β} (hm : f[i]? = some m)
      (hfinish : k.finish m.state = .ok (result, state)) : Moves k f (.finish i) (f.set i (m.closes result state))

theorem update_cases (f : Family β σ ρ α) (i : Nat) (act : Member β σ ρ α → Except Failure (Member β σ ρ α)) :
    (∃ failure, update f i act = .error failure) ∨
      ∃ m m', f[i]? = some m ∧ act m = .ok m' ∧ update f i act = .ok (f.set i m') := by
  unfold update
  cases hm : f[i]? with
  | none => exact .inl ⟨_, rfl⟩
  | some m =>
    cases hact : act m with
    | error failure => exact .inl ⟨failure, by simp only [hact]; rfl⟩
    | ok m' => exact .inr ⟨m, m', rfl, hact, by simp only [hact]; rfl⟩

theorem after_of_error {failure : Failure} (h : k.step f call = .error failure) : k.after f call = f := by
  rw [after, h]

theorem after_of_ok (h : k.step f call = .ok f') : k.after f call = f' := by
  rw [after, h]

theorem Lawful.moves (hk : k.Lawful) (f : Family β σ ρ α) (call : Call ρ) : k.Moves f call (k.after f call) := by
  cases hstep : k.step f call with
  | error failure =>
    rw [after_of_error hstep]
    exact .fails hstep
  | ok f' =>
    rw [after_of_ok hstep]
    cases call with
    | new =>
      cases hstep
      exact .new
    | child p =>
      -- Only what was sealed can be continued.
      obtain ⟨failure, hnone⟩ := hk.child
      simp only [step] at hstep
      split at hstep
      · rename_i m hm
        cases hresult : m.result with
        | none =>
          rw [hresult, hnone] at hstep
          cases hstep
        | some result =>
          rw [hresult] at hstep
          cases hstate : k.child (some result) with
          | error =>
            rw [hstate] at hstep
            cases hstep
          | ok state =>
            rw [hstate] at hstep
            cases hstep
            exact .child hm hresult hstate
      · rw [hnone] at hstep
        cases hstep
    | serve i request =>
      rcases update_cases f i _ with ⟨failure, herror⟩ | ⟨m, m', hm, hact, hok⟩
      · exact absurd (hstep.symm.trans herror) (by simp)
      · cases hstep.symm.trans hok
        cases hserve : k.serve request m.state with
        | error =>
          rw [hserve] at hact
          cases hact
        | ok given =>
          rw [hserve] at hact
          cases hact
          exact .serve hm hserve
    | finish i =>
      rcases update_cases f i _ with ⟨failure, herror⟩ | ⟨m, m', hm, hact, hok⟩
      · exact absurd (hstep.symm.trans herror) (by simp)
      · cases hstep.symm.trans hok
        cases hfinish : k.finish m.state with
        | error =>
          rw [hfinish] at hact
          cases hact
        | ok sealed =>
          rw [hfinish] at hact
          cases hact
          exact .finish hm hfinish

/-- A call to one allocator changes no other one. -/
theorem Moves.getElem? (h : k.Moves f call f') (hm : f[i]? = some m) (hcall : call.target ≠ some i) :
    f'[i]? = some m := by
  have hlt : i < f.length := (List.getElem?_eq_some_iff.1 hm).1
  cases h with
  | fails => exact hm
  | new | child => rwa [List.getElem?_append_left hlt]
  | serve | finish => rwa [List.getElem?_set_ne fun heq => hcall (congrArg some heq)]

/-- What refuses does not change at all. -/
theorem Moves.getElem?_of_refuses (h : k.Moves f call f') (hm : f[i]? = some m) (hrefuses : k.Refuses m.state) :
    f'[i]? = some m := by
  by_cases hcall : call.target = some i
  · cases h with
    | fails => exact hm
    | new | child => cases hcall
    | @serve _ request _ _ _ hm' hserve =>
      cases hcall
      obtain ⟨failure, herror⟩ := hrefuses.serve request
      rw [hm] at hm'
      cases hm'
      rw [herror] at hserve
      cases hserve
    | finish hm' hfinish =>
      cases hcall
      obtain ⟨failure, herror⟩ := hrefuses.finish
      rw [hm] at hm'
      cases hm'
      rw [herror] at hfinish
      cases hfinish
  · exact h.getElem? hm hcall

/-! ### Properties of allocators -/

/-- A property that every allocator of a family has. -/
structure Invariant (k : AllocatorScheme β σ ρ α) (P : Member β σ ρ α → Prop) : Prop where
  new : P { state := k.new }
  child : ∀ {m p result state}, P m → m.result = some result → k.child (some result) = .ok state → P (m.heir p state)
  serve : ∀ {m request answer state}, P m → k.serve request m.state = .ok (answer, state) →
    P (m.gives request answer state)
  finish : ∀ {m result state}, P m → k.finish m.state = .ok (result, state) → P (m.closes result state)

namespace Invariant

variable {P : Member β σ ρ α → Prop}

theorem moves (h : k.Invariant P) (hmoves : k.Moves f call f') (hf : ∀ m ∈ f, P m) : ∀ m ∈ f', P m := by
  cases hmoves with
  | fails => exact hf
  | new => exact List.forall_mem_append.2 ⟨hf, List.forall_mem_singleton.2 h.new⟩
  | child hm hresult hstate =>
    exact List.forall_mem_append.2
      ⟨hf, List.forall_mem_singleton.2 (h.child (hf _ (List.mem_of_getElem? hm)) hresult hstate)⟩
  | serve hm hserve =>
    intro m' hm'
    rcases List.mem_or_eq_of_mem_set hm' with hm' | rfl
    · exact hf m' hm'
    · exact h.serve (hf _ (List.mem_of_getElem? hm)) hserve
  | finish hm hfinish =>
    intro m' hm'
    rcases List.mem_or_eq_of_mem_set hm' with hm' | rfl
    · exact hf m' hm'
    · exact h.finish (hf _ (List.mem_of_getElem? hm)) hfinish

theorem run (h : k.Invariant P) (hk : k.Lawful) (calls : List (Call ρ)) : ∀ m ∈ k.run calls, P m := by
  induction calls using List.reverseRecOn with
  | nil => exact fun _ hm => absurd hm List.not_mem_nil
  | append_singleton calls call ih =>
    rw [run_concat]
    exact h.moves (hk.moves _ call) ih

end Invariant

theorem Lawful.refuses (hk : k.Lawful) : k.Invariant fun m => m.result.isSome → k.Refuses m.state where
  new h := by cases h
  child _ _ _ h := by cases h
  serve {m request answer state} hm hserve hsome := by
    obtain ⟨failure, herror⟩ := (hm hsome).serve request
    rw [herror] at hserve
    cases hserve
  finish _ hfinish _ := hk.finish hfinish

/-- Whatever is called, a sealed allocator and what it was sealed to stay as they are. -/
theorem Lawful.getElem?_sealed (hk : k.Lawful) (calls : List (Call ρ)) (call : Call ρ)
    (hm : (k.run calls)[i]? = some m) (hsealed : m.result.isSome) : (k.after (k.run calls) call)[i]? = some m :=
  (hk.moves _ call).getElem?_of_refuses hm (hk.refuses.run hk calls m (List.mem_of_getElem? hm) hsealed)

/-! ### Allocators that continue others -/

/-- A relation between an allocator and those that continue it. All allocators have the property `P`. -/
structure Passes (k : AllocatorScheme β σ ρ α) (P : Member β σ ρ α → Prop)
    (R : Member β σ ρ α → Member β σ ρ α → Prop) : Prop where
  child : ∀ {m p result state}, P m → m.result = some result → k.child (some result) = .ok state → R m (m.heir p state)
  serve : ∀ {m c request answer state}, P c → R m c → k.serve request c.state = .ok (answer, state) →
    R m (c.gives request answer state)
  finish : ∀ {m c result state}, R m c → k.finish c.state = .ok (result, state) → R m (c.closes result state)

/-- Each allocator that continues another one came after it, when that was sealed, and is related to it by `R`. -/
def Linked (R : Member β σ ρ α → Member β σ ρ α → Prop) (f : Family β σ ρ α) : Prop :=
  ∀ i c p, f[i]? = some c → c.parent = some p → p < i ∧ ∃ m, f[p]? = some m ∧ m.result.isSome ∧ R m c

namespace Passes

variable {P : Member β σ ρ α → Prop} {R : Member β σ ρ α → Member β σ ρ α → Prop}

/-- The allocator with number `i` was replaced by `c'`. It was not sealed, so none continues it. -/
theorem linked_set {c' : Member β σ ρ α} (hf : Linked R f) (hm : f[i]? = some m) (hparent : c'.parent = m.parent)
    (hopen : ¬ m.result.isSome) (hR : ∀ q, R q m → R q c') : Linked R (f.set i c') := by
  intro j d p hj hp
  have hlt : i < f.length := (List.getElem?_eq_some_iff.1 hm).1
  have hkept {q : Member β σ ρ α} (hq : f[p]? = some q) (hsealed : q.result.isSome) : (f.set i c')[p]? = some q := by
    have hne : i ≠ p := by
      rintro rfl
      rw [hm] at hq
      cases hq
      exact hopen hsealed
    rwa [List.getElem?_set_ne hne]
  by_cases hij : i = j
  · subst hij
    rw [List.getElem?_set_self hlt] at hj
    cases hj
    rw [hparent] at hp
    obtain ⟨hlt', q, hq, hsealed, hqm⟩ := hf i m p hm hp
    exact ⟨hlt', q, hkept hq hsealed, hsealed, hR q hqm⟩
  · rw [List.getElem?_set_ne hij] at hj
    obtain ⟨hlt', q, hq, hsealed, hqd⟩ := hf j d p hj hp
    exact ⟨hlt', q, hkept hq hsealed, hsealed, hqd⟩

/-- A new allocator comes last. -/
theorem linked_concat {c : Member β σ ρ α} (hf : Linked R f)
    (hc : ∀ p, c.parent = some p → ∃ m, f[p]? = some m ∧ m.result.isSome ∧ R m c) : Linked R (f ++ [c]) := by
  intro j d p hj hp
  have hkept {q : Member β σ ρ α} (hq : f[p]? = some q) : p < f.length ∧ (f ++ [c])[p]? = some q := by
    have hlt : p < f.length := (List.getElem?_eq_some_iff.1 hq).1
    exact ⟨hlt, by rwa [List.getElem?_append_left hlt]⟩
  rcases Nat.lt_or_ge j f.length with hlt | hge
  · rw [List.getElem?_append_left hlt] at hj
    obtain ⟨hlt', q, hq, hrest⟩ := hf j d p hj hp
    exact ⟨hlt', q, (hkept hq).2, hrest⟩
  · rw [List.getElem?_append_right hge] at hj
    have hd : d = c := List.mem_singleton.1 (List.mem_of_getElem? hj)
    subst hd
    obtain ⟨q, hq, hrest⟩ := hc p hp
    exact ⟨Nat.lt_of_lt_of_le (hkept hq).1 hge, q, (hkept hq).2, hrest⟩

theorem moves (h : k.Passes P R) (hmoves : k.Moves f call f') (hP : ∀ m ∈ f, P m)
    (hrefuses : ∀ m ∈ f, m.result.isSome → k.Refuses m.state) (hf : Linked R f) : Linked R f' := by
  cases hmoves with
  | fails => exact hf
  | new => exact linked_concat hf fun p hp => by cases hp
  | child hm hresult hstate =>
    refine linked_concat hf fun p hp => ?_
    cases hp
    exact ⟨_, hm, by rw [hresult]; rfl, h.child (hP _ (List.mem_of_getElem? hm)) hresult hstate⟩
  | @serve _ request m _ _ hm hserve =>
    refine linked_set hf hm rfl (fun hsealed => ?_) fun q hq => h.serve (hP _ (List.mem_of_getElem? hm)) hq hserve
    obtain ⟨failure, herror⟩ := (hrefuses m (List.mem_of_getElem? hm) hsealed).serve request
    rw [herror] at hserve
    cases hserve
  | @finish _ m _ _ hm hfinish =>
    refine linked_set hf hm rfl (fun hsealed => ?_) fun q hq => h.finish hq hfinish
    obtain ⟨failure, herror⟩ := (hrefuses m (List.mem_of_getElem? hm) hsealed).finish
    rw [herror] at hfinish
    cases hfinish

theorem run (h : k.Passes P R) (hP : k.Invariant P) (hk : k.Lawful) (calls : List (Call ρ)) :
    Linked R (k.run calls) := by
  induction calls using List.reverseRecOn with
  | nil => exact fun _ _ _ hi => by cases hi
  | append_singleton calls call ih =>
    rw [run_concat]
    exact h.moves (hk.moves _ call) (hP.run hk calls) (hk.refuses.run hk calls) ih

end Passes

/-- One allocator continues another one, directly or through others, or is the same. -/
def Derives (f : Family β σ ρ α) : Nat → Nat → Prop :=
  Relation.ReflTransGen fun i p => ∃ c, f[i]? = some c ∧ c.parent = some p

end AllocatorScheme

end JvmAot
