import BraceLang.Proofs.Plain.Evaluation

/-!
# Values with other bodies

The bodies of closures can be replaced throughout a datum, a scope and the slots, for instance
syntax trees by their tokens. Whatever evaluation asks of a value, other than the bodies, stays as
it was.

* `Datum.mapBody`, `Scope.mapBody`, `Core.mapBody`: replace all bodies.
* `Scope.lookup_mapBody`, `Slots.value?_mapBody`: names and slots are found as before.
-/

namespace BraceLang

section MapBody

variable {β γ : Type} (f : β → γ)

mutual

/-- Replace the bodies of all closures in a datum. -/
def Datum.mapBody : Datum β → Datum γ
  | .number n => .number n
  | .string text => .string text
  | .list items => .list (Datum.mapBodies items)
  | .closure params body scope => .closure params (f body) (Scope.mapBody scope)

def Datum.mapBodies : List (Datum β) → List (Datum γ)
  | [] => []
  | item :: items => item.mapBody :: Datum.mapBodies items

def Bound.mapBody : Bound β → Bound γ
  | .value datum => .value datum.mapBody
  | .slot index => .slot index

def Scope.mapBody : List (List (List Char × Bound β)) → List (List (List Char × Bound γ))
  | [] => []
  | frame :: scope => Frame.mapBody frame :: Scope.mapBody scope

def Frame.mapBody : List (List Char × Bound β) → List (List Char × Bound γ)
  | [] => []
  | entry :: frame => Frame.mapEntry entry :: Frame.mapBody frame

def Frame.mapEntry : List Char × Bound β → List Char × Bound γ
  | (name, bound) => (name, bound.mapBody)

end

/-- Replace the bodies of the values in slots. -/
def Slots.mapBody (slots : Slots β) : Slots γ :=
  slots.map fun datum? => datum?.map (Datum.mapBody f)

/-- Replace the bodies of the values in slots. -/
def Core.mapBody (core : Core β) : Core γ := ⟨core.used, Slots.mapBody f core.slots⟩

theorem Frame.mapBody_eq_map (frame : Frame β) :
    Frame.mapBody f frame = frame.map (Frame.mapEntry f) := by
  induction frame with
  | nil => rfl
  | cons entry frame ih => simp [Frame.mapBody, ih]

@[simp] theorem Datum.typeName_mapBody (d : Datum β) : (d.mapBody f).typeName = d.typeName := by
  cases d <;> rfl

@[simp] theorem Datum.number?_mapBody (d : Datum β) : (d.mapBody f).number? = d.number? := by
  cases d <;> rfl

theorem Datum.list?_mapBody (d : Datum β) :
    (d.mapBody f).list? = d.list?.map (Datum.mapBodies f) := by
  cases d <;> rfl

/-! ## Names and slots -/

theorem Frame.lookup_mapBody (frame : Frame β) (name : List Char) :
    (Frame.mapBody f frame).lookup name = (frame.lookup name).map (Bound.mapBody f) := by
  induction frame with
  | nil => rfl
  | cons entry frame ih =>
    obtain ⟨key, bound⟩ := entry
    simp only [Frame.mapBody, Frame.mapEntry, List.lookup_cons]
    cases name == key with
    | true => rfl
    | false => exact ih

theorem Scope.lookup_mapBody (scope : Scope β) (name : List Char) :
    Scope.lookup (Scope.mapBody f scope) name = (scope.lookup name).map (Bound.mapBody f) := by
  induction scope with
  | nil => rfl
  | cons frame scope ih =>
    simp only [Scope.lookup, Scope.mapBody, List.findSome?_cons, Frame.lookup_mapBody]
    cases frame.lookup name with
    | some bound => rfl
    | none => exact ih

theorem Slots.value?_mapBody (slots : Slots β) (index : Nat) :
    Slots.value? (Slots.mapBody f slots) index = (slots.value? index).map (Datum.mapBody f) := by
  simp only [Slots.value?, Slots.mapBody, Array.getElem?_map]
  cases slots[index]? <;> rfl

theorem Slots.mapBody_push (slots : Slots β) :
    Slots.mapBody f (slots.push none) = (Slots.mapBody f slots).push none := by
  simp [Slots.mapBody]

theorem Slots.mapBody_set (slots : Slots β) (index : Nat) (d : Datum β) :
    Slots.mapBody f (slots.setIfInBounds index (some d)) =
      (Slots.mapBody f slots).setIfInBounds index (some (d.mapBody f)) := by
  simp [Slots.mapBody, Array.map_setIfInBounds]

end MapBody

end BraceLang
