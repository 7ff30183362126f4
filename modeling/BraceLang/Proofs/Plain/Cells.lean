import BraceLang.Proofs.Effects
import BraceLang.Proofs.Plain.Compositional

/-!
# Evaluations with other cells in use

The number of cells that are in use, and where it ends, is nothing that an evaluation can find out:
two evaluations that differ in it have the same value, or the same failure, as long as neither of
them is refused a cell. The depth does count, since it can be reached.

* `CoreM.Alike`: two outcomes from states with different cells.
* `CoreM.UpToCells`: two actions with outcomes of that kind.
* `Plain.upToCells_evaluateWithin`, `Plain.upToCells_skipWithin`: terms.
-/

namespace BraceLang

/-- The depth is the same, and the greatest one. -/
structure Limits.SameDepth (limits limits' : Limits) : Prop where
  maxDepth : limits'.maxDepth = limits.maxDepth
  depth : limits'.depth = limits.depth

theorem Limits.SameDepth.deeper {limits limits' : Limits} (h : limits.SameDepth limits') :
    limits.deeper.SameDepth limits'.deeper := ⟨h.maxDepth, congrArg (· + 1) h.depth⟩

namespace CoreM

variable {α α' γ γ' β : Type}

/-- The outcome is that a cell is refused. -/
def Refused (result : EStateM.Result Fault (Core β) α) : Prop :=
  ∃ (fault : Fault) (core : Core β), result = .error fault core ∧ fault.val.isFatal = true

/-- Both succeed with related results and the same slots, or both fail in the same way, or one of
them is refused a cell. -/
inductive Alike (R : α → α' → Prop) :
    EStateM.Result Fault (Core β) α → EStateM.Result Fault (Core β) α' → Prop
  | ok {a : α} {a' : α'} {core core' : Core β} : R a a' → core'.slots = core.slots →
    Alike R (.ok a core) (.ok a' core')
  | error (fault : Fault) {core core' : Core β} : Alike R (.error fault core) (.error fault core')
  | left {result : EStateM.Result Fault (Core β) α} {result' : EStateM.Result Fault (Core β) α'} :
    Refused result → Alike R result result'
  | right {result : EStateM.Result Fault (Core β) α} {result' : EStateM.Result Fault (Core β) α'} :
    Refused result' → Alike R result result'

/-- From states that differ in their cells the actions have outcomes that are alike. -/
def UpToCells (action action' : CoreM β α) : Prop :=
  ∀ ⦃limits limits' core core'⦄, limits.SameDepth limits' → core'.slots = core.slots →
    Alike (· = ·) (action limits core) (action' limits' core')

theorem Refused.bind {action : CoreM β α} {f : α → CoreM β γ} {limits : Limits} {core : Core β}
    (h : Refused (action limits core)) : Refused ((action >>= f) limits core) := by
  obtain ⟨fault, core', herror, hfatal⟩ := h
  exact ⟨fault, core', reader_bind_of_error herror, hfatal⟩

namespace Alike

variable {R : α → α' → Prop} {Q : γ → γ' → Prop} {limits limits' : Limits} {core core' : Core β}

theorem bind {action : CoreM β α} {action' : CoreM β α'} {f : α → CoreM β γ}
    {f' : α' → CoreM β γ'} (h : Alike R (action limits core) (action' limits' core'))
    (hf : ∀ ⦃a a' core₁ core₁'⦄, R a a' → core₁'.slots = core₁.slots →
      Alike Q (f a limits core₁) (f' a' limits' core₁')) :
    Alike Q ((action >>= f) limits core) ((action' >>= f') limits' core') := by
  generalize hrun : action limits core = result at h
  generalize hrun' : action' limits' core' = result' at h
  cases h with
  | ok hR hslots =>
    rw [reader_bind_of_ok hrun, reader_bind_of_ok hrun']
    exact hf hR hslots
  | error fault =>
    rw [reader_bind_of_error hrun, reader_bind_of_error hrun']
    exact .error fault
  | left hrefused => exact .left (Refused.bind (hrun ▸ hrefused))
  | right hrefused => exact .right (Refused.bind (hrun' ▸ hrefused))

end Alike

namespace UpToCells

variable {action action' : CoreM β α}

theorem pure (a : α) : UpToCells (Pure.pure a : CoreM β α) (Pure.pure a) :=
  fun _ _ _ _ _ hslots => .ok rfl hslots

theorem bind {f f' : α → CoreM β γ} (h : UpToCells action action')
    (hf : ∀ a, UpToCells (f a) (f' a)) : UpToCells (action >>= f) (action' >>= f') := by
  intro limits limits' core core' hlimits hslots
  refine (h hlimits hslots).bind ?_
  rintro a - core₁ core₁' rfl hslots₁
  exact hf a hlimits hslots₁

theorem nested (h : UpToCells action action') :
    UpToCells (CoreM.nested action) (CoreM.nested action') := by
  intro limits limits' core core' hlimits hslots
  unfold CoreM.nested
  rw [hlimits.maxDepth, hlimits.depth]
  by_cases hdeep : limits.maxDepth ≤ limits.depth
  · rw [if_pos hdeep, if_pos hdeep]
    exact .error _
  · rw [if_neg hdeep, if_neg hdeep]
    exact h hlimits.deeper hslots

theorem alloc : UpToCells (CoreM.alloc : CoreM β Unit) CoreM.alloc := by
  intro limits limits' core core' _ hslots
  unfold CoreM.alloc
  cases limits.refusal core.used with
  | some e => exact .left ⟨_, _, rfl, rfl⟩
  | none =>
    cases limits'.refusal core'.used with
    | some e => exact .right ⟨_, _, rfl, rfl⟩
    | none => exact .ok rfl hslots

theorem of_basic (h : Basic action) : UpToCells action action := by
  induction h with
  | pure a => exact pure a
  | throw fault => exact fun _ _ _ _ _ _ => .error fault
  | @slots _ f _ ih =>
    intro limits limits' core core' hlimits hslots
    have hf : (MonadState.get >>= fun core : Core β => f core.slots) limits' core' =
        f core.slots limits' core' := by
      rw [← hslots]
      rfl
    rw [hf]
    exact ih core.slots hlimits hslots
  | alloc => exact alloc
  | newSlot =>
    intro limits limits' core core' _ hslots
    unfold newSlot
    rw [hslots]
    cases Store.indexFault? core.slots.size with
    | some e => exact .error _
    | none => exact .ok rfl rfl
  | bind _ _ ih ihf => exact ih.bind ihf

theorem fill (index : Nat) (value : Datum β) :
    UpToCells (CoreM.fill index value) (CoreM.fill index value) := by
  intro limits limits' core core' _ hslots
  exact .ok rfl (congrArg (fun slots => slots.setIfInBounds index (some value)) hslots)

theorem tooDeep : UpToCells (CoreM.tooDeep : CoreM β α) CoreM.tooDeep := by
  intro limits limits' core core' hlimits _
  have hfault : (CoreM.tooDeep : CoreM β α) limits' core' =
      .error ⟨.tooDeep limits.maxDepth, rfl⟩ core' := by
    rw [← hlimits.maxDepth]
    rfl
  rw [hfault]
  exact .error _

end UpToCells

end CoreM

namespace Plain

open BraceLang.CoreM

/-! ## Terms -/

theorem sequential_upToCells : Sequential CoreM.UpToCells where
  basic := .of_basic
  bind := .bind

theorem structural_upToCells : Structural CoreM.UpToCells where
  toSequential := sequential_upToCells
  nested := .nested
  call := fun he => sequential_upToCells.call he .fill

theorem related_tooDeep {α : Type} :
    Related CoreM.UpToCells (CoreM.tooDeep.lift : TokenM α) CoreM.tooDeep.lift :=
  sequential_upToCells.related_lift .tooDeep

theorem upToCells_skipWithin (levels : Nat) :
    Related CoreM.UpToCells (skipWithin levels) (skipWithin levels) := by
  have hR := structural_upToCells
  induction levels with
  | zero => exact related_tooDeep
  | succ levels ih => exact hR.related_nested (hR.congruence.skipWith ih)

theorem upToCells_evaluateWithin (levels : Nat) (scope : Scope Tokens) :
    Related CoreM.UpToCells (evaluateWithin levels scope) (evaluateWithin levels scope) := by
  have hR := structural_upToCells
  induction levels generalizing scope with
  | zero => exact related_tooDeep
  | succ levels ih =>
    exact hR.related_nested (hR.termWith ih (upToCells_skipWithin levels) scope)

end Plain

end BraceLang
