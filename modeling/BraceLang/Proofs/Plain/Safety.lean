import BraceLang.Proofs.Effects
import BraceLang.Proofs.Plain.Evaluation

/-!
# What actions on data can end with

An action is safe for some failures and for a property of results when it fails with one of these
failures or succeeds with a result that has the property, whatever the limits and the state are. For
actions that read something the property includes what is left to be read.

* `CoreM.Safe`, `ReadM.Safe`: actions that read nothing, and actions that do.
* `Plain.safe_applyKeyword`: the operation of a keyword is safe if its operands are.
-/

namespace BraceLang

namespace CoreM

variable {α β γ : Type}

/-- A failure is one of these, and a result has the property. -/
structure Safe (E : Fault → Prop) (Q : α → Prop) (action : CoreM β α) : Prop where
  ok : ∀ ⦃limits core a core'⦄, action limits core = .ok a core' → Q a
  error : ∀ ⦃limits core fault core'⦄, action limits core = .error fault core' → E fault

namespace Safe

variable {E : Fault → Prop} {Q : α → Prop} {R : γ → Prop} {action : CoreM β α}

theorem pure {a : α} (h : Q a) : Safe E Q (Pure.pure a : CoreM β α) where
  ok := by
    intro limits core b core' hrun
    cases hrun
    exact h
  error := by
    intro limits core fault core' hrun
    cases hrun

theorem throw {fault : Fault} (h : E fault) : Safe E Q (MonadExcept.throw fault : CoreM β α) where
  ok := by
    intro limits core a core' hrun
    cases hrun
  error := by
    intro limits core fault' core' hrun
    cases hrun
    exact h

theorem bind {f : α → CoreM β γ} (h : Safe E Q action) (hf : ∀ a, Q a → Safe E R (f a)) :
    Safe E R (action >>= f) where
  ok := by
    intro limits core c core₂ hrun
    obtain ⟨a, core₁, haction, hrest⟩ := reader_bind_eq_ok_iff.mp hrun
    exact (hf a (h.ok haction)).ok hrest
  error := by
    intro limits core fault core₂ hrun
    cases haction : action limits core with
    | ok a core₁ =>
      rw [reader_bind_of_ok haction] at hrun
      exact (hf a (h.ok haction)).error hrun
    | error fault' core₁ =>
      rw [reader_bind_of_error haction] at hrun
      cases hrun
      exact h.error haction

theorem map {f : α → γ} (h : Safe E Q action) (hf : ∀ a, Q a → R (f a)) :
    Safe E R (f <$> action) := by
  rw [← bind_pure_comp]
  exact h.bind fun a hQ => .pure (hf a hQ)

/-- Something is done for each item. -/
theorem forM {items : List γ} {f : γ → CoreM β PUnit}
    (h : ∀ item ∈ items, Safe E (fun _ => True) (f item)) :
    Safe E (fun _ => True) (items.forM f) := by
  induction items with
  | nil => exact pure trivial
  | cons item items ih =>
    obtain ⟨hitem, hitems⟩ := List.forall_mem_cons.mp h
    exact hitem.bind fun _ _ => ih hitems

theorem nested (hdeep : ∀ limit, E ⟨.tooDeep limit, rfl⟩) (h : Safe E Q action) :
    Safe E Q (CoreM.nested action) where
  ok := by
    intro limits core a core' hrun
    unfold CoreM.nested at hrun
    split at hrun
    · cases hrun
    · exact h.ok hrun
  error := by
    intro limits core fault core' hrun
    unfold CoreM.nested at hrun
    split at hrun
    · cases hrun
      exact hdeep _
    · exact h.error hrun

theorem tooDeep (hdeep : ∀ limit, E ⟨.tooDeep limit, rfl⟩) :
    Safe E Q (CoreM.tooDeep : CoreM β α) where
  ok := by
    intro limits core a core' hrun
    cases hrun
  error := by
    intro limits core fault core' hrun
    cases hrun
    exact hdeep _

theorem get : Safe E (fun _ => True) (MonadState.get : CoreM β (Core β)) where
  ok := fun _ _ _ _ _ => trivial
  error := by
    intro limits core fault core' hrun
    cases hrun

theorem alloc (halloc : ∀ e, E ⟨.allocationFailure e, rfl⟩) :
    Safe E (fun _ => True) (CoreM.alloc : CoreM β Unit) where
  ok := fun _ _ _ _ _ => trivial
  error := by
    intro limits core fault core' hrun
    unfold CoreM.alloc at hrun
    split at hrun
    · cases hrun
      exact halloc _
    · cases hrun

theorem charge (halloc : ∀ e, E ⟨.allocationFailure e, rfl⟩) (cells : Nat) :
    Safe E (fun _ => True) (CoreM.charge cells : CoreM β Unit) := by
  induction cells with
  | zero => exact pure trivial
  | succ cells ih => exact (alloc halloc).bind fun _ _ => ih

end Safe

end CoreM

/-! ## Actions that read something -/

namespace ReadM

variable {σ α β γ : Type}

/-- When what is read has the property, the action is safe, and so is what it leaves. -/
def Safe (I : σ → Prop) (E : Fault → Prop) (Q : α → Prop) (action : ReadM σ β α) : Prop :=
  ∀ s, I s → CoreM.Safe E (fun p => Q p.1 ∧ I p.2) (action s)

namespace Safe

variable {I : σ → Prop} {E : Fault → Prop} {Q : α → Prop} {R : γ → Prop} {action : ReadM σ β α}

theorem pure {a : α} (h : Q a) : Safe I E Q (Pure.pure a : ReadM σ β α) :=
  fun _ hs => CoreM.Safe.pure ⟨h, hs⟩

theorem bind {f : α → ReadM σ β γ} (h : Safe I E Q action) (hf : ∀ a, Q a → Safe I E R (f a)) :
    Safe I E R (action >>= f) :=
  fun s hs => (h s hs).bind fun p hp => hf p.1 hp.1 p.2 hp.2

theorem map {f : α → γ} (h : Safe I E Q action) (hf : ∀ a, Q a → R (f a)) :
    Safe I E R (f <$> action) := by
  rw [← bind_pure_comp]
  exact h.bind fun a hQ => .pure (hf a hQ)

theorem lift {action : CoreM β α} (h : CoreM.Safe E Q action) :
    Safe I E Q (action.lift : ReadM σ β α) :=
  fun _ hs => h.bind fun _ hQ => .pure ⟨hQ, hs⟩

end Safe

end ReadM

namespace Plain

/-! ## Operations of keywords -/

section Operations

variable {σ β : Type} {I : σ → Prop} {E : Fault → Prop} {Q : Datum β → Prop}
  {operand : ReadM σ β (Datum β)} {skip : ReadM σ β Unit}
  (hmismatch : ∀ op expected found, E ⟨.typeMismatch op expected found, rfl⟩)
  (ho : ReadM.Safe I E Q operand)
include hmismatch

theorem safe_mismatch {α : Type} {P : α → Prop} (op : Keyword) (expected : Expectation)
    (found : String) : ReadM.Safe I E P (CoreM.mismatch op expected found : CoreM β α).lift :=
  .lift (.throw (hmismatch op expected found))

include ho

theorem safe_numberOperand (op : Keyword) :
    ReadM.Safe I E (fun _ => True) (numberOperand operand op) := by
  refine ho.bind fun value _ => ?_
  cases value.number? with
  | some x => exact .pure trivial
  | none => exact safe_mismatch hmismatch _ _ _

theorem safe_listOperand (hlist : ∀ items, Q (.list items) → ∀ item ∈ items, Q item)
    (op : Keyword) :
    ReadM.Safe I E (fun items => ∀ item ∈ items, Q item) (listOperand operand op) := by
  refine ho.bind fun value hvalue => ?_
  cases value with
  | list items => exact .pure (hlist items hvalue)
  | number x => exact safe_mismatch hmismatch _ _ _
  | string text => exact safe_mismatch hmismatch _ _ _
  | closure params body scope => exact safe_mismatch hmismatch _ _ _

theorem safe_equalOperands (op : Keyword) :
    ReadM.Safe I E (fun _ => True) (equalOperands operand op) := by
  refine ho.bind fun x _ => ho.bind fun y _ => ?_
  split
  · exact .pure trivial
  · exact .pure trivial
  · split
    · exact safe_mismatch hmismatch _ _ _
    · exact safe_mismatch hmismatch _ _ _

theorem safe_condition (hs : ReadM.Safe I E (fun _ => True) skip) :
    ReadM.Safe I E Q (condition operand skip) := by
  refine (safe_numberOperand hmismatch ho _).bind fun flag _ => ?_
  split
  · exact hs.bind fun _ _ => ho
  · exact ho.bind fun value hvalue => hs.bind fun _ _ => .pure hvalue

/-- Keywords give numbers, lists of what they have been given, or what was in such a list. -/
theorem safe_applyKeyword (hs : ReadM.Safe I E (fun _ => True) skip)
    (halloc : ∀ e, E ⟨.allocationFailure e, rfl⟩) (hnumber : ∀ x, Q (.number x))
    (hlist : ∀ items, Q (.list items) ↔ ∀ item ∈ items, Q item) (op : Keyword) :
    ReadM.Safe I E Q (applyKeyword operand skip op) := by
  have hitems := safe_listOperand hmismatch ho (fun items => (hlist items).mp) op
  unfold applyKeyword
  split
  · exact (safe_numberOperand hmismatch ho _).bind fun x _ =>
      (safe_numberOperand hmismatch ho _).bind fun y _ => .pure (hnumber _)
  · exact (safe_equalOperands hmismatch ho _).map fun _ _ => hnumber _
  · exact (safe_equalOperands hmismatch ho _).map fun _ _ => hnumber _
  · exact safe_condition hmismatch ho hs
  · refine ho.bind fun item hitem => hitems.bind fun items hitems => ?_
    refine (ReadM.Safe.lift (.charge halloc 1)).bind fun _ _ => .pure ((hlist _).mpr ?_)
    exact List.forall_mem_cons.mpr ⟨hitem, hitems⟩
  · refine hitems.bind fun items hitems => ?_
    cases items with
    | nil => exact safe_mismatch hmismatch _ _ _
    | cons head rest => exact .pure (hitems head List.mem_cons_self)
  · exact hitems.bind fun items hitems => .pure ((hlist _).mpr fun item hitem =>
      hitems item (List.mem_of_mem_tail hitem))
  · refine ho.bind fun value _ => ?_
    cases value <;> exact .pure (hnumber _)
  · exact .pure ((hlist []).mpr (by simp))

end Operations

end Plain

end BraceLang
