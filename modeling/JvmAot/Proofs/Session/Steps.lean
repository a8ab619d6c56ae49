import JvmAot.Session.Compile
import JvmAot.Proofs.Heap.Emission
import JvmAot.Proofs.Session.Resolution

/-! # What compiling does to a session

`Step` says what lowering does to a session: it resolves, gives out labels, makes string objects and fills
vtables. Classes and labels stay (`Steps.mem_classes`, `Steps.extends_labels`). The sessions that calls and
compilations lead to, in the middle of a compilation too, are the `Reached` ones. -/

namespace JvmAot

namespace Listing

variable {σ : Type}

theorem state_append (t : Listing σ) (lines : List Line) : (t.append lines).state = t.state := by
  unfold append
  split <;> rfl

theorem state_andThen {P : σ → Prop} {t : Listing σ} {next : σ → Listing σ} (h : P t.state)
    (hnext : P (next t.state).state) : P (t.andThen next).state := by
  unfold andThen
  split
  · exact h
  · exact hnext

end Listing

namespace Session

variable {loader : Loader} {s s' : Session}

/-- One thing that happens to a session while a program is compiled. -/
inductive Step (loader : Loader) : Session → Session → Prop
  | change {s s' : Session} (h : Change loader s s') : Step loader s s'
  | label {s : Session} (v : Value) : Step loader s (s.label v).2
  | string {s : Session} (className : String) (slot : Nat) (units : List UInt16) :
      Step loader s (s.stringObject className slot units).2
  | fill {s : Session} {c : ClassInfo} (hc : c ∈ s.classes.latest) : Step loader s (s.fillVtable c)

/-- Any number of steps. -/
def Steps (loader : Loader) : Session → Session → Prop :=
  Relation.ReflTransGen (Step loader)

/-- The sessions that calls and compilations lead to. -/
inductive Reached (loader : Loader) : Session → Prop
  | start : Reached loader {}
  | step {s s' : Session} (h : Reached loader s) (hstep : Step loader s s') : Reached loader s'
  | close {s : Session} (h : Reached loader s) : Reached loader s.close
  /-- Some classes are going to be compiled. -/
  | mark {s : Session} (h : Reached loader s) (names : List String) :
      Reached loader { s with compiled := names ++ s.compiled }
  /-- The object graph was written, up to a failure perhaps. -/
  | emit {s : Session} (h : Reached loader s) {e : Emission}
      (he : (Emission.all (s.objectResolver loader) { heap := s.heap, labels := s.labels }).1 = e) :
      Reached loader { s with heap := e.heap, labels := e.labels }

namespace Steps

theorem refl : Steps loader s s :=
  Relation.ReflTransGen.refl

theorem trans {s'' : Session} (h : Steps loader s s') (h' : Steps loader s' s'') : Steps loader s s'' :=
  Relation.ReflTransGen.trans h h'

theorem keep {P : Session → Prop} (hstep : ∀ {s s'}, Step loader s s' → P s → P s') (h : Steps loader s s')
    (hs : P s) : P s' := by
  induction h with
  | refl => exact hs
  | tail _ hlast ih => exact hstep hlast ih

end Steps

theorem Step.steps (h : Step loader s s') : Steps loader s s' :=
  .single h

theorem Changes.steps (h : Changes loader s s') : Steps loader s s' := by
  induction h with
  | refl => exact .refl
  | tail _ hlast ih => exact ih.trans (Step.change hlast).steps

theorem Reached.steps (h : s.Reached loader) (hsteps : Steps loader s s') : s'.Reached loader :=
  hsteps.keep (fun hstep h => h.step hstep) h

theorem Reachable.reached (h : s.Reachable loader) : s.Reached loader :=
  h.induct .start (fun hchange h => h.step (.change hchange)) .close

/-! ### Answers -/

theorem steps_answerFor {α : Type} {owner : String} {answer : ClassTable → ClassInfo → Except Failure α} :
    Steps loader s (s.answerFor loader owner answer).2 := by
  unfold answerFor
  split <;> exact (changes_resolveClass ‹_›).steps

theorem steps_answer (loader : Loader) (className : String) (q : Question) (s : Session) :
    Steps loader s (s.answer loader className q).2 := by
  cases q with
  | field owner name => exact steps_answerFor
  | method owner name descriptor => exact steps_answerFor
  | instanceSize owner => exact steps_answerFor
  | arrayVtable descriptor =>
    have hresolve := (changes_resolveArray loader descriptor s).steps
    simp only [answer]
    split
    · rename_i heq
      rwa [heq] at hresolve
    · rename_i heq
      rw [heq] at hresolve
      exact hresolve.trans (Step.label _).steps
  | stringLabel slot units =>
    have hstring : Steps loader s _ := (Step.string className slot units).steps
    simp only [answer]
    split
    · rename_i heq
      rwa [heq] at hstring
    · rename_i id s₁ heq
      rw [heq] at hstring
      exact hstring.trans (Step.label (s := s₁) (.object id)).steps

theorem steps_run {className : String} {lowering : Lowering} {result : Lowered}
    (h : lowering.run (context loader className) s = (result, s')) : Steps loader s s' := by
  cases lowering with
  | done => cases h; exact .refl
  | ask q next =>
    have hanswer := steps_answer loader className q s
    rw [Lowering.run] at h
    split at h <;> (rename_i heq; cases h; rwa [show (s.answer loader className q) = _ from heq] at hanswer)

/-! ### Texts -/

theorem steps_listing {className : String} {scope : Scope} (instructions : List Instruction) (s : Session) :
    Steps loader s (scope.listing (context loader className) instructions s).state := by
  induction instructions generalizing s with
  | nil => exact .refl
  | cons i rest ih =>
    rcases hrun : (scope.lower i).run (context loader className) s with ⟨⟨code, failure⟩, s₁⟩
    have hfirst := steps_run hrun
    rw [Scope.listing, hrun]
    cases failure with
    | some failure => exact hfirst
    | none => exact hfirst.trans (ih s₁)

theorem steps_methodListing (d : MethodDecl) (header : Int) (className : String) (s : Session) :
    Steps loader s (d.listing (context loader className) header className s).state := by
  unfold MethodDecl.listing
  split
  · exact .refl
  split
  · exact .refl
  split
  · exact .refl
  rw [Listing.within, MethodDecl.bodyListing]
  split
  · exact .refl
  · rw [Listing.state_append]
    exact steps_listing ..

theorem steps_methodsListing (header : Nat) (className : String) (methods : List MethodInfo) (s : Session) :
    Steps loader s (s.methodsListing loader header className methods).state := by
  induction methods generalizing s with
  | nil => exact .refl
  | cons m rest ih =>
    have hfirst : Steps loader s _ := steps_methodListing m.decl header className s
    exact Listing.state_andThen (P := Steps loader s) hfirst (hfirst.trans (ih _))

/-! ### Classes and labels stay -/

theorem Change.latest_suffix (h : Change loader s s') : s.classes.latest <:+ s'.classes.latest := by
  cases h with
  | @define name file super =>
    rcases define_cases name file super s with ⟨_, heq⟩ | ⟨_, _, _, heq, -⟩ <;> simp only [heq]
    · exact List.suffix_refl _
    · exact List.suffix_cons _ _
  | defineArray | designate => exact List.suffix_refl _

/-- A string object is no class, and gets no label yet. -/
theorem stringObject_frame (className : String) (slot : Nat) (units : List UInt16) (s : Session) :
    (s.stringObject className slot units).2 =
      { s with heap := (s.stringObject className slot units).2.heap,
               strings := (s.stringObject className slot units).2.strings } := by
  unfold stringObject
  split
  · rfl
  · split <;> rfl

theorem Step.latest_suffix (h : Step loader s s') : s.classes.latest <:+ s'.classes.latest := by
  cases h with
  | change h => exact h.latest_suffix
  | string className slot units =>
    have hclasses : (s.stringObject className slot units).2.classes = s.classes := by rw [stringObject_frame]
    simp only [hclasses]
    exact List.suffix_refl _
  | label | fill => exact List.suffix_refl _

/-- New classes come after those that are there. -/
theorem Steps.latest_suffix (h : Steps loader s s') : s.classes.latest <:+ s'.classes.latest :=
  h.keep (P := fun s' => s.classes.latest <:+ s'.classes.latest)
    (fun hstep h => h.trans hstep.latest_suffix) (List.suffix_refl _)

theorem Steps.mem_classes (h : Steps loader s s') {c : ClassInfo} (hc : c ∈ s.classes.latest) :
    c ∈ s'.classes.latest :=
  h.latest_suffix.subset hc

theorem Change.frame (h : Change loader s s') : s'.labels = s.labels ∧ s'.compiled = s.compiled := by
  cases h with
  | @define name file super =>
    rcases define_cases name file super s with ⟨_, heq⟩ | ⟨_, _, _, heq, -⟩ <;> rw [heq] <;> exact ⟨rfl, rfl⟩
  | defineArray | designate => exact ⟨rfl, rfl⟩

theorem Steps.extends_labels (h : Steps loader s s') : s.labels.Extends s'.labels := by
  refine h.keep (P := fun s' => s.labels.Extends s'.labels) (fun {s₁ s₂} hstep h => h.trans ?_) .refl
  cases hstep with
  | change hchange => rw [hchange.frame.1]; exact .refl
  | label v => exact (s₁.labels.get_spec v).1
  | string => rw [stringObject_frame]; exact .refl
  | fill => exact .refl

theorem Steps.compiled_eq (h : Steps loader s s') : s'.compiled = s.compiled := by
  refine h.keep (P := fun s' => s'.compiled = s.compiled) (fun hstep h => ?_) rfl
  cases hstep with
  | change hchange => exact hchange.frame.2.trans h
  | string => rw [stringObject_frame]; exact h
  | label | fill => exact h

/-! ### Compilations -/

theorem steps_classListing {c : ClassInfo} (hc : c ∈ s.classes.latest) :
    Steps loader s (s.classListing loader c).state := by
  unfold classListing
  rw [Listing.within]
  split
  · exact .refl
  · have hmethods : Steps loader s _ := steps_methodsListing ‹Nat› c.name c.methods s
    have hfill : Step loader _ _ := .fill (hmethods.mem_classes hc)
    exact Listing.state_andThen (P := Steps loader s) hmethods (hmethods.trans hfill.steps)

theorem steps_classesListing {classes : List ClassInfo} (h : ∀ c ∈ classes, c ∈ s.classes.latest) :
    Steps loader s (s.classesListing loader classes).state := by
  induction classes generalizing s with
  | nil => exact .refl
  | cons c rest ih =>
    have hfirst : Steps loader s _ := steps_classListing (h c (List.mem_cons_self ..))
    refine Listing.state_andThen (P := Steps loader s) hfirst (hfirst.trans (ih fun d hd => ?_))
    exact hfirst.mem_classes (h d (List.mem_cons_of_mem _ hd))

/-- What a compilation does after marking the classes that it is about to write. -/
theorem steps_compileClass (loader : Loader) {c : ClassInfo} (hc : c ∈ s.classes.latest) :
    ∃ names, Steps loader { s with compiled := names ++ s.compiled } (s.compileClass loader c).state := by
  refine ⟨_, steps_classesListing fun k hk => ?_⟩
  exact ClassTable.mem_of_mem_chain hc (List.takeWhile_subset _ (List.mem_reverse.1 hk))

namespace Reached

theorem compileClass (h : s.Reached loader) {c : ClassInfo} (hc : c ∈ s.classes.latest) :
    (s.compileClass loader c).state.Reached loader := by
  obtain ⟨names, hsteps⟩ := steps_compileClass loader hc
  exact (h.mark names).steps hsteps

theorem compileFrom (h : s.Reached loader) (fuel next : Nat) :
    (s.compileFrom loader fuel next).state.Reached loader := by
  induction fuel generalizing next s with
  | zero => exact h
  | succ fuel ih =>
    rw [Session.compileFrom]
    split
    · exact h
    · rename_i c hc
      have hfirst := h.compileClass (ClassTable.mem_order.1 (List.mem_of_getElem? hc))
      exact Listing.state_andThen (P := Reached loader) hfirst (ih hfirst _)

end Reached

theorem steps_aliasLines (classes : List ClassInfo) (s : Session) : Steps loader s (aliasLines classes s).2 := by
  induction classes generalizing s with
  | nil => exact .refl
  | cons c rest ih =>
    rw [aliasLines]
    split
    · exact ih s
    · exact (Step.label _).steps.trans (ih _)

theorem Reached.dataLines (h : s.Reached loader) : (s.dataLines loader).state.Reached loader := by
  have haliases := h.steps (steps_aliasLines s.classes.order s)
  rw [Session.dataLines, Listing.state_append]
  exact haliases.emit rfl

/-- A session that has compiled a program, or failed to, is one that calls lead to. -/
theorem Reached.compile (h : s.Reached loader) (prologue : ByteArray) (entry : String) :
    (s.compile loader prologue entry).state.Reached loader := by
  have hboot := h.steps (changes_bootstrap loader s).steps
  rw [Session.compile, Listing.prepend]
  split
  · rename_i heq
    rwa [heq] at hboot
  rename_i s₁ heq
  rw [heq] at hboot
  split
  · exact hboot.steps (changes_resolveClass ‹_›).steps
  rename_i c s₂ hentry
  have hresolved := hboot.steps (changes_resolveClass hentry).steps
  have hc : c ∈ s₂.classes.latest := ClassTable.mem_of_find? (find?_of_resolveClass hentry)
  have hfirst := hresolved.compileClass hc
  have hall := Listing.state_andThen (P := Reached loader) hfirst (hfirst.compileFrom (loader.limit + 1) 0)
  exact Listing.state_andThen (P := Reached loader) hall (hall.close.dataLines)

end Session

end JvmAot
