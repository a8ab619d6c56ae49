import JvmAot.Proofs.Heap.Emission

/-! # What writing objects asks for

The data of an object starts with the vtable of its type, so whoever writes it asks for an array type or for the layout
of a class (`Object.arrayType?`, `Object.className?`). If a heap holds objects of known types only (`Object.Within`),
and this goes for new strings too, then nothing else is asked: the result depends on the answers for the known types
alone (`Emission.all_congr`), and if there are answers for all of these, no failure speaks of a type
(`Emission.all_serves`). -/

namespace JvmAot

/-- Whether a failure says that something was asked for after resolution was closed. -/
def Cause.isClosing : Cause → Bool
  | .classResolutionClosed _ | .arrayResolutionClosed _ => true
  | _ => false

/-- The array type whose vtable the data of an object starts with. -/
def Object.arrayType? : Object → Option String
  | primitiveArray element _ => some (primitiveArrayType element)
  | objectArray type _ => some type
  | ofClass .. | metadata _ => none

/-- The class whose vtable the data of an object starts with. -/
def Object.className? : Object → Option String
  | ofClass className _ => some className
  | primitiveArray .. | objectArray .. | metadata _ => none

variable {arrays classes : String → Prop} {r r' : ObjectResolver} {o : Object} {h : Heap}

/-- An object is of one of the given array types or classes, or is metadata. -/
structure Object.Within (arrays classes : String → Prop) (o : Object) : Prop where
  arrayType : ∀ d, o.arrayType? = some d → arrays d
  className : ∀ n, o.className? = some n → classes n

theorem Object.Within.metadata (m : Metadata) : (Object.metadata m).Within arrays classes :=
  ⟨fun _ h => (by cases h), fun _ h => (by cases h)⟩

/-! ### Heaps -/

namespace Heap

variable {P Q : Object → Prop}

/-- All objects have a property. -/
def Each (P : Object → Prop) (h : Heap) : Prop :=
  ∀ i o, h.get? i = some o → P o

theorem Each.empty : Each P {} := by
  intro i o ho
  simp [get?] at ho

theorem Each.mono (hh : h.Each P) (hPQ : ∀ o, P o → Q o) : h.Each Q :=
  fun i o ho => hPQ o (hh i o ho)

theorem Each.allocate (hh : h.Each P) (ho : P o) : (h.allocate o).2.Each P := by
  intro i o' ho'
  simp only [Heap.allocate, get?, Array.getElem?_push] at ho'
  split at ho'
  · cases ho'
    exact ho
  · exact hh i o' ho'

theorem Each.set {id : ObjectId} (hh : h.Each P) (ho : P o) : (h.set id o).Each P := by
  intro i o' ho'
  simp only [Heap.set, get?, Array.getElem?_setIfInBounds] at ho'
  split at ho'
  · split at ho'
    · cases ho'
      exact ho
    · cases ho'
  · exact hh i o' ho'

end Heap

/-! ### Resolvers -/

namespace ObjectResolver

/-- Two resolvers give the same answers for some array types and classes, and make the same strings. -/
structure Agree (arrays classes : String → Prop) (r r' : ObjectResolver) : Prop where
  arrayMetadata : ∀ d, arrays d → r.arrayMetadata d = r'.arrayMetadata d
  classLayout : ∀ n, classes n → r.classLayout n = r'.classLayout n
  newString : r.newString = r'.newString

/-- A resolver has answers for some array types and classes, and makes strings of these. -/
structure Serves (arrays classes : String → Prop) (r : ObjectResolver) : Prop where
  arrayMetadata : ∀ d, arrays d → ∃ id, r.arrayMetadata d = .ok id
  classLayout : ∀ n, classes n → ∃ l, r.classLayout n = .ok l
  newString : ∀ {text h id h'}, r.newString text h = .ok (id, h') → h.Each (Object.Within arrays classes) →
    h'.Each (Object.Within arrays classes)
  refusal : ∀ {text h failure}, r.newString text h = .error failure → failure.cause.isClosing = false

end ObjectResolver

/-! ### Data -/

namespace Heap

theorem block_congr (hr : r.Agree arrays classes r') (ho : o.Within arrays classes) : h.block r o = h.block r' o := by
  cases o with
  | primitiveArray element values => simp only [block, hr.arrayMetadata _ (ho.arrayType _ rfl)]
  | objectArray type elements => simp only [block, hr.arrayMetadata _ (ho.arrayType _ rfl)]
  | ofClass className values => simp only [block, hr.classLayout _ (ho.className _ rfl)]
  | metadata m => rfl

theorem isClosing_fieldData {l : ObjectLayout} {className : String} {values : List (String × Value)} {position : Int}
    {fields : List FieldSlot} {failure : Failure}
    (hf : (h.fieldData l className values position fields).failure = some failure) :
    failure.cause.isClosing = false := by
  induction fields generalizing position with
  | nil => cases hf
  | cons f rest ih =>
    simp only [fieldData] at hf
    split at hf
    · exact ih hf
    · split at hf
      · exact ih hf
      · cases hf
        rfl

theorem isClosing_block (hr : r.Serves arrays classes) (ho : o.Within arrays classes) {failure : Failure}
    (hf : (h.block r o).failure = some failure) : failure.cause.isClosing = false := by
  cases o with
  | primitiveArray element values =>
    obtain ⟨id, hid⟩ := hr.arrayMetadata _ (ho.arrayType _ rfl)
    simp [block, hid] at hf
  | objectArray type elements =>
    obtain ⟨id, hid⟩ := hr.arrayMetadata _ (ho.arrayType _ rfl)
    simp [block, hid] at hf
  | ofClass className values =>
    obtain ⟨l, hl⟩ := hr.classLayout _ (ho.className _ rfl)
    simp only [block, hl] at hf
    cases hrefusal : l.refusal? className values with
    | some cause =>
      rw [hrefusal] at hf
      cases hf
      unfold ObjectLayout.refusal? at hrefusal
      split at hrefusal
      · cases hrefusal
        rfl
      · split at hrefusal <;> cases hrefusal
        rfl
    | none =>
      rw [hrefusal] at hf
      exact isClosing_fieldData hf
  | metadata m => cases hf

end Heap

/-! ### Writing -/

namespace Emission

variable {e : Emission} {v : Value}

theorem ensureName_congr (hr : r.newString = r'.newString) (id : ObjectId) (m : Metadata) :
    e.ensureName r id m = e.ensureName r' id m := by
  simp only [ensureName, hr]

theorem ensureName_within {id : ObjectId} {m m' : Metadata} {e' : Emission} (hr : r.Serves arrays classes)
    (he : e.heap.Each (Object.Within arrays classes)) (h : e.ensureName r id m = .ok (m', e')) :
    e'.heap.Each (Object.Within arrays classes) := by
  rcases ensureName_cases h with ⟨-, -, rfl⟩ | ⟨string, heap, -, hnew, rfl, rfl⟩
  · exact he
  · exact (hr.newString hnew he).set (.metadata _)

theorem value_congr (hagree : r.Agree arrays classes r') (he : e.heap.Each (Object.Within arrays classes)) (v : Value) :
    value r e v = value r' e v := by
  cases v with
  | object id =>
    simp only [value]
    cases ho : e.heap.get? id with
    | none => rfl
    | some o =>
      cases o with
      | metadata m =>
        dsimp only
        rw [ensureName_congr hagree.newString]
        cases e.ensureName r' id m <;> rfl
      | _ => simp only [Heap.block_congr hagree (he id _ ho)]
  | _ => rfl

theorem value_serves (hr : r.Serves arrays classes) (he : e.heap.Each (Object.Within arrays classes)) (v : Value) :
    (value r e v).1.heap.Each (Object.Within arrays classes) ∧
      ∀ failure, (value r e v).2 = some failure → failure.cause.isClosing = false := by
  cases v with
  | object id =>
    simp only [value]
    cases ho : e.heap.get? id with
    | none => exact ⟨he, fun _ hf => by cases hf; rfl⟩
    | some o =>
      cases o with
      | metadata m =>
        dsimp only
        cases hname : e.ensureName r id m with
        | error failure =>
          refine ⟨he, fun _ hf => ?_⟩
          cases hf
          unfold ensureName at hname
          split at hname
          · cases hname
          · split at hname
            · rename_i hnew
              cases hname
              exact hr.refusal hnew
            · cases hname
        | ok named =>
          obtain ⟨m', e'⟩ := named
          have he' : e'.heap.Each (Object.Within arrays classes) := ensureName_within hr he hname
          exact ⟨he', fun _ hf => by cases hf⟩
      | _ => exact ⟨he, fun _ hf => Heap.isClosing_block hr (he id _ ho) hf⟩
  | null => exact ⟨he, fun _ hf => by cases hf⟩
  | _ => exact ⟨he, fun _ hf => by cases hf; rfl⟩

theorem run_congr (hr : r.Serves arrays classes) (hagree : r.Agree arrays classes r')
    (he : e.heap.Each (Object.Within arrays classes)) (fuel next : Nat) : run r fuel next e = run r' fuel next e := by
  induction fuel generalizing next e with
  | zero => rfl
  | succ fuel ih =>
    simp only [run]
    cases e.labels.order[next]? with
    | none => rfl
    | some v =>
      have hvalue := value_serves (e := { e with lines := e.lines.push (.label (LabelTable.label next)) }) hr he v
      dsimp only
      rw [← value_congr hagree (e := { e with lines := e.lines.push (.label (LabelTable.label next)) }) he v]
      generalize value r { e with lines := e.lines.push (.label (LabelTable.label next)) } v = written at hvalue ⊢
      obtain ⟨e', failure⟩ := written
      cases failure with
      | some failure => rfl
      | none =>
        -- The heap may have gained a name string, but that is of known types too.
        exact ih hvalue.1 (next + 1)

theorem run_serves (hr : r.Serves arrays classes) (he : e.heap.Each (Object.Within arrays classes)) (fuel next : Nat) :
    (run r fuel next e).1.heap.Each (Object.Within arrays classes) ∧
      ∀ failure, (run r fuel next e).2 = some failure → failure.cause.isClosing = false := by
  induction fuel generalizing next e with
  | zero => exact ⟨he, fun _ hf => by cases hf; rfl⟩
  | succ fuel ih =>
    simp only [run]
    cases e.labels.order[next]? with
    | none => exact ⟨he, fun _ hf => by cases hf⟩
    | some v =>
      have hvalue := value_serves (e := { e with lines := e.lines.push (.label (LabelTable.label next)) }) hr he v
      dsimp only
      generalize value r { e with lines := e.lines.push (.label (LabelTable.label next)) } v = written at hvalue ⊢
      obtain ⟨e', failure⟩ := written
      cases failure with
      | some failure => exact hvalue
      | none => exact ih hvalue.1 (next + 1)

theorem all_congr (hr : r.Serves arrays classes) (hagree : r.Agree arrays classes r')
    (he : e.heap.Each (Object.Within arrays classes)) : all r e = all r' e :=
  run_congr hr hagree he _ _

theorem all_serves (hr : r.Serves arrays classes) (he : e.heap.Each (Object.Within arrays classes)) :
    (all r e).1.heap.Each (Object.Within arrays classes) ∧
      ∀ failure, (all r e).2 = some failure → failure.cause.isClosing = false :=
  run_serves hr he _ _

end Emission

end JvmAot
