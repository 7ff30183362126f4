import BraceLang.Proofs.Plain.Evaluation

/-!
# Relations between evaluations on data

A term is evaluated by steps of its own and by the evaluation of the terms inside. A relation
between actions that sequences, levels of depth and calls keep, and in which the steps are related
to themselves, relates the evaluations of a term if those of the terms inside are related.

Some relations say which tokens an action reads, and are kept by the parts of a term that take each
token at which they look. Others hold between what the actions do on any token list; such a relation
is determined by one between actions that read nothing.

* `CoreM.Basic`, `Plain.Step`: actions without terms inside.
* `Plain.Congruence`: what a relation has to keep for the parts of a term.
* `Plain.Structural`, `Plain.Compositional`: what a relation between actions that read nothing has
  to keep.
* `Plain.Compositional.evaluateWithin`, `Plain.Compositional.skipWithin`: the two recursions.
-/

namespace BraceLang

/-- Actions that are put together from taking cells, adding and reading slots and failures. -/
inductive CoreM.Basic {β : Type} : {α : Type} → CoreM β α → Prop
  | pure {α : Type} (a : α) : Basic (Pure.pure a)
  | throw {α : Type} (fault : Fault) : Basic (MonadExcept.throw fault : CoreM β α)
  | slots {α : Type} {f : Slots β → CoreM β α} :
    (∀ slots, Basic (f slots)) → Basic (MonadState.get >>= fun core : Core β => f core.slots)
  | alloc : Basic alloc
  | newSlot : Basic newSlot
  | bind {α γ : Type} {action : CoreM β α} {f : α → CoreM β γ} :
    Basic action → (∀ a, Basic (f a)) → Basic (action >>= f)

/-! ## Basic actions -/

namespace CoreM

variable {α β : Type}

theorem basic_fail (fault : FormFault) : Basic (fail fault : CoreM β α) := .throw _

theorem basic_charge (cells : Nat) : Basic (charge cells : CoreM β Unit) := by
  induction cells with
  | zero => exact .pure _
  | succ cells ih => exact Basic.alloc.bind fun _ => ih

theorem basic_mismatch (op : Keyword) (expected : Expectation) (found : String) :
    Basic (mismatch op expected found : CoreM β α) := .throw _

/-- A name that is bound to a slot is looked up in the slots. -/
theorem lookupName_slot {name : List Char} {scope : Scope β} {index : Nat}
    (h : scope.lookup name = some (.slot index)) :
    ∃ answer : Slots β → CoreM β (Datum β), (∀ slots, Basic (answer slots)) ∧
      lookupName name scope = MonadState.get >>= fun core : Core β => answer core.slots := by
  refine ⟨fun slots => (slots.value? index).elim
    (MonadExcept.throw ⟨.unresolvedDeferred (String.ofList name), rfl⟩) Pure.pure,
    fun slots => ?_, ?_⟩
  · dsimp only
    cases slots.value? index with
    | some datum => exact .pure _
    | none => exact .throw _
  · unfold lookupName
    rw [h]
    refine bind_congr fun core => ?_
    dsimp only
    cases core.slots.value? index <;> rfl

theorem basic_lookupName (name : List Char) (scope : Scope β) : Basic (lookupName name scope) := by
  cases h : scope.lookup name with
  | none =>
    unfold lookupName
    rw [h]
    exact .throw _
  | some bound =>
    cases bound with
    | value datum =>
      unfold lookupName
      rw [h]
      exact .pure _
    | slot index =>
      obtain ⟨answer, hanswer, hlookup⟩ := lookupName_slot h
      rw [hlookup]
      exact .slots hanswer

theorem basic_checkSeparator (last : Bool) (separator : Separator) :
    Basic (checkSeparator last separator : CoreM β Unit) := by
  cases separator <;> cases last
  · exact .pure _
  · exact basic_fail _
  · exact basic_fail _
  · exact .pure _

end CoreM

namespace Plain

open BraceLang.CoreM

theorem basic_extend {β : Type} (scope : Scope β) (actuals : List (List Char × Actual β)) :
    CoreM.Basic (extend scope actuals) :=
  (basic_charge _).bind fun _ => (basic_charge _).bind fun _ => .pure _

theorem basic_render (value : Datum Tokens) : CoreM.Basic (render value) :=
  .slots (f := fun slots => Pure.pure (String.ofList (value.full slots))) fun _ => .pure _

/-! ## Steps on tokens -/

/-- Actions on a token list without terms inside. -/
inductive Step : {α : Type} → TokenM α → Prop
  | lift {α : Type} {action : CoreM Tokens α} : CoreM.Basic action → Step action.lift
  | next (atEnd : FormFault) : Step (next atEnd)
  | expect (delimiter : Char) : Step (expect delimiter)
  | separator : Step separator
  | formals : Step (split (splitFormals false))
  | body : Step (split (splitBody 0))
  | argument : Step (split splitArgument)
  | groups (due : List Char) : Step (split (splitGroups due))
  | bind {α γ : Type} {action : TokenM α} {f : α → TokenM γ} :
    Step action → (∀ a, Step (f a)) → Step (action >>= f)

namespace Step

variable {α : Type}

theorem pure (a : α) : Step (Pure.pure a : TokenM α) := by
  have hlift : (Pure.pure a : TokenM α) = (Pure.pure a : CoreM Tokens α).lift := by
    funext tokens limits core
    rfl
  rw [hlift]
  exact .lift (.pure a)

theorem fail (fault : FormFault) : Step (Plain.fail fault : TokenM α) := .lift (basic_fail _)

theorem unexpected (token : Lexeme) : Step (Plain.unexpected token : TokenM α) := fail _

theorem throw (fault : Fault) : Step (MonadExcept.throw fault : TokenM α) := by
  have hlift : (MonadExcept.throw fault : TokenM α) =
      (MonadExcept.throw fault : CoreM Tokens α).lift := by
    funext tokens limits core
    rfl
  rw [hlift]
  exact .lift (.throw fault)

theorem notAFunction (value : Datum Tokens) :
    Step (do MonadExcept.throw (.notAFunction (← (render value).lift)) : TokenM α) :=
  (Step.lift (basic_render value)).bind fun _ => .throw _

theorem closure (scope : Scope Tokens) : Step (Plain.closure scope) :=
  Step.formals.bind fun _ => Step.body.bind fun _ => (Step.lift (basic_charge _)).bind fun _ =>
    (Step.lift (basic_charge _)).bind fun _ => (Step.lift (basic_charge _)).bind fun _ => .pure _

theorem captureArgument : Step Plain.captureArgument :=
  Step.argument.bind fun _ => (Step.lift (basic_charge _)).bind fun _ => .pure _

/-- On given tokens a step is basic. -/
theorem basic {action : TokenM α} (h : Step action) (tokens : Tokens) :
    CoreM.Basic (action tokens) := by
  have hsplit : ∀ {γ : Type} (part : Tokens → Except FormFault (γ × Tokens)) (tokens : Tokens),
      CoreM.Basic (split part tokens) := by
    intro γ part tokens
    unfold split
    cases part tokens with
    | ok result => exact .pure _
    | error fault => exact basic_fail _
  induction h generalizing tokens with
  | lift h => exact h.bind fun _ => .pure _
  | next atEnd =>
    cases tokens with
    | nil => exact basic_fail _
    | cons token rest => exact .pure _
  | expect delimiter =>
    cases tokens with
    | nil => exact basic_fail _
    | cons token rest =>
      by_cases hd : token.isDelimiter delimiter
      · simp only [Plain.expect, hd, if_true]
        exact .pure _
      · simp only [Plain.expect, hd]
        exact basic_fail _
  | separator =>
    cases tokens with
    | nil => exact basic_fail _
    | cons token rest =>
      cases hfound : separator? token with
      | some found =>
        simp only [Plain.separator, hfound]
        exact .pure _
      | none =>
        simp only [Plain.separator, hfound]
        exact basic_fail _
  | formals => exact hsplit _ _
  | body => exact hsplit _ _
  | argument => exact hsplit _ _
  | groups due => exact hsplit _ _
  | bind _ _ ih ihf => exact (ih tokens).bind fun p => ihf p.1 p.2

end Step

/-! ## Relations between actions -/

/-- A relation between actions that sequences keep, and in which steps are related to
themselves. -/
structure Congruence (S : ∀ {α : Type}, TokenM α → TokenM α → Prop) : Prop where
  step : ∀ {α : Type} {action : TokenM α}, Step action → S action action
  bind : ∀ {α γ : Type} {action action' : TokenM α} {f f' : α → TokenM γ},
    S action action' → (∀ a, S (f a) (f' a)) → S (action >>= f) (action' >>= f')

namespace Congruence

variable {S : ∀ {α : Type}, TokenM α → TokenM α → Prop} (hS : Congruence S)
include hS

theorem map {α γ : Type} {action action' : TokenM α} (h : S action action') (f : α → γ) :
    S (f <$> action) (f <$> action') := by
  rw [← bind_pure_comp, ← bind_pure_comp]
  exact hS.bind h fun a => hS.step (.pure (f a))

/-! ## Operations of keywords -/

section Operations

variable {operand operand' : TokenM (Datum Tokens)} {skip skip' : TokenM Unit}

theorem numberOperand (ho : S operand operand') (op : Keyword) :
    S (numberOperand operand op) (numberOperand operand' op) := by
  refine hS.bind ho fun value => hS.step ?_
  cases value.number? with
  | some x => exact .pure x
  | none => exact .lift (basic_mismatch _ _ _)

theorem listOperand (ho : S operand operand') (op : Keyword) :
    S (listOperand operand op) (listOperand operand' op) := by
  refine hS.bind ho fun value => hS.step ?_
  cases value.list? with
  | some items => exact .pure items
  | none => exact .lift (basic_mismatch _ _ _)

theorem equalOperands (ho : S operand operand') (op : Keyword) :
    S (equalOperands operand op) (equalOperands operand' op) := by
  refine hS.bind ho fun x => hS.bind ho fun y => hS.step ?_
  split
  · exact .pure _
  · exact .pure _
  · split
    · exact .lift (basic_mismatch _ _ _)
    · exact .lift (basic_mismatch _ _ _)

theorem condition (ho : S operand operand') (hs : S skip skip') :
    S (condition operand skip) (condition operand' skip') := by
  refine hS.bind (hS.numberOperand ho _) fun flag => ?_
  split
  · exact hS.bind hs fun _ => ho
  · exact hS.bind ho fun value => hS.bind hs fun _ => hS.step (.pure value)

theorem applyKeyword (ho : S operand operand') (hs : S skip skip')
    (op : Keyword) : S (applyKeyword operand skip op) (applyKeyword operand' skip' op) := by
  unfold Plain.applyKeyword
  split
  · exact hS.bind (hS.numberOperand ho _) fun x =>
      hS.bind (hS.numberOperand ho _) fun y => hS.step (.pure _)
  · exact hS.map (hS.equalOperands ho _) _
  · exact hS.map (hS.equalOperands ho _) _
  · exact hS.condition ho hs
  · refine hS.bind ho fun item => hS.bind (hS.listOperand ho _) fun items => ?_
    exact hS.step ((Step.lift (basic_charge 1)).bind fun _ => .pure _)
  · refine hS.bind (hS.listOperand ho _) fun items => hS.step ?_
    cases items with
    | nil => exact .lift (basic_mismatch _ _ _)
    | cons head rest => exact .pure head
  · exact hS.bind (hS.listOperand ho _) fun items => hS.step (.pure _)
  · refine hS.bind ho fun value => hS.step ?_
    cases value <;> exact .pure _
  · exact hS.step (.pure _)

end Operations

theorem times {action action' : TokenM Unit} (h : S action action')
    (count : Nat) : S (times count action) (times count action') := by
  induction count with
  | zero => exact hS.step (.pure ())
  | succ count ih => exact hS.bind h fun _ => ih

/-- A term that is skipped, with related ways to skip the terms inside. -/
theorem skipWith {skip skip' : TokenM Unit} (hs : S skip skip') :
    S (skipWith skip) (skipWith skip') := by
  refine hS.bind (hS.step (.next _)) fun token => ?_
  split
  · exact hS.step (.pure ())
  · exact hS.step (.pure ())
  · exact hS.step (.pure ())
  · exact hS.times hs _
  · exact hS.step (.groups _)
  · exact hS.step (.groups _)
  · exact hS.step (.unexpected _)

/-! ## Parts of a call -/

section Calls

variable {eval eval' : Scope Tokens → TokenM (Datum Tokens)}
  (he : ∀ scope, S (eval scope) (eval' scope))
include he

theorem bindActual (scope : Scope Tokens) (param : Param) :
    S (bindActual eval scope param) (bindActual eval' scope param) := by
  unfold Plain.bindActual
  cases param.mode with
  | eager =>
    refine hS.bind (he scope) fun value => hS.step ?_
    exact Step.separator.bind fun _ => .pure _
  | deferred =>
    refine hS.step (Step.captureArgument.bind fun captured => ?_)
    exact (Step.lift .newSlot).bind fun _ => .pure _

theorem bindActuals (scope : Scope Tokens) (params : List Param) :
    S (bindActuals eval scope params) (bindActuals eval' scope params) := by
  induction params with
  | nil => exact hS.step (.pure _)
  | cons param params ih =>
    refine hS.bind (hS.bindActual he scope param) fun bound => ?_
    refine hS.bind (hS.step (.lift (basic_checkSeparator _ _))) fun _ => ?_
    exact hS.bind ih fun _ => hS.step (.pure _)

end Calls

end Congruence

/-! ## Relations that do not look at tokens -/

/-- Whatever is read, the actions on it are related. -/
def Related (R : ∀ {α : Type}, CoreM Tokens α → CoreM Tokens α → Prop) {σ α : Type}
    (action action' : ReadM σ Tokens α) : Prop :=
  ∀ s, R (action s) (action' s)

/-- A relation between actions that sequences keep, and in which basic actions are related to
themselves. -/
structure Sequential (R : ∀ {α : Type}, CoreM Tokens α → CoreM Tokens α → Prop) : Prop where
  basic : ∀ {α : Type} {action : CoreM Tokens α}, CoreM.Basic action → R action action
  bind : ∀ {α γ : Type} {action action' : CoreM Tokens α} {f f' : α → CoreM Tokens γ},
    R action action' → (∀ a, R (f a) (f' a)) → R (action >>= f) (action' >>= f')

/-- A relation that levels of depth and calls keep too. -/
structure Structural (R : ∀ {α : Type}, CoreM Tokens α → CoreM Tokens α → Prop) : Prop
    extends Sequential R where
  nested : ∀ {α : Type} {action action' : CoreM Tokens α}, R action action' →
    R (CoreM.nested action) (CoreM.nested action')
  call : ∀ {eval eval' : Scope Tokens → TokenM (Datum Tokens)},
    (∀ scope, Related R (eval scope) (eval' scope)) → ∀ scope params body defining,
      Related R (call eval scope params body defining) (call eval' scope params body defining)

/-- A relation in which an action that has no level left is related to any other, so that the two
evaluations of a term may have different numbers of levels left. -/
structure Compositional (R : ∀ {α : Type}, CoreM Tokens α → CoreM Tokens α → Prop) : Prop
    extends Structural R where
  tooDeep : ∀ {α : Type} (action : CoreM Tokens α), R CoreM.tooDeep action

namespace Sequential

variable {R : ∀ {α : Type}, CoreM Tokens α → CoreM Tokens α → Prop} (hR : Sequential R)
include hR

theorem related_step {α : Type} {action : TokenM α} (h : Step action) : Related R action action :=
  fun s => hR.basic (h.basic s)

theorem related_lift {α : Type} {action action' : CoreM Tokens α} (h : R action action') :
    Related R (action.lift : TokenM α) action'.lift :=
  fun _ => hR.bind h fun _ => hR.basic (.pure _)

theorem related_bind {α γ : Type} {action action' : TokenM α} {f f' : α → TokenM γ}
    (h : Related R action action') (hf : ∀ a, Related R (f a) (f' a)) :
    Related R (action >>= f) (action' >>= f') :=
  fun s => hR.bind (h s) fun p => hf p.1 p.2

/-- The parts of a term are related on any tokens. -/
theorem congruence : Congruence (Related R) where
  step := hR.related_step
  bind := hR.related_bind

theorem runBody {eval eval' : Scope Tokens → TokenM (Datum Tokens)}
    (he : ∀ scope, Related R (eval scope) (eval' scope)) (scope : Scope Tokens) (body : Tokens) :
    R (runBody eval scope body) (runBody eval' scope body) := by
  refine hR.bind (he scope body) fun result => hR.basic ?_
  obtain ⟨value, left⟩ := result
  cases left with
  | nil => exact .pure value
  | cons token left => exact basic_fail _

section Calls

variable {eval eval' : Scope Tokens → TokenM (Datum Tokens)}
  (he : ∀ scope, Related R (eval scope) (eval' scope))
  (hfill : ∀ slot value, R (CoreM.fill slot value) (CoreM.fill slot value))
include he hfill

theorem settle (scope : Scope Tokens) (name : List Char) (actual : Actual Tokens) :
    R (settle eval scope name actual) (settle eval' scope name actual) := by
  cases actual with
  | evaluated value => exact hR.basic (.pure ())
  | captured slot argument =>
    refine hR.bind (he scope argument) fun result => ?_
    obtain ⟨value, left⟩ := result
    cases left with
    | nil => exact hfill slot value
    | cons token left => exact hR.basic (basic_fail _)

theorem settleAll (scope : Scope Tokens) (actuals : List (List Char × Actual Tokens)) :
    R (settleAll eval scope actuals) (settleAll eval' scope actuals) := by
  induction actuals with
  | nil => exact hR.basic (.pure ())
  | cons entry actuals ih => exact hR.bind (hR.settle he hfill scope entry.1 entry.2) fun _ => ih

/-- Calls, where a slot may be filled whatever is in it. -/
theorem call (scope : Scope Tokens) (params : List Param) (body : Tokens)
    (defining : Scope Tokens) :
    Related R (call eval scope params body defining)
      (call eval' scope params body defining) := by
  unfold Plain.call
  split
  · refine hR.related_bind (hR.related_step (.expect _)) fun _ => ?_
    exact hR.related_lift (hR.runBody he defining body)
  · refine hR.related_bind (hR.congruence.bindActuals he scope _) fun actuals => ?_
    refine hR.related_bind (hR.related_step (.lift (basic_extend defining actuals))) ?_
    intro inner
    refine hR.related_bind (hR.related_lift (hR.settleAll he hfill inner actuals)) fun _ => ?_
    exact hR.related_lift (hR.runBody he inner body)

end Calls

end Sequential

/-! ## Terms -/

namespace Structural

variable {R : ∀ {α : Type}, CoreM Tokens α → CoreM Tokens α → Prop} (hR : Structural R)
include hR

theorem related_nested {α : Type} {action action' : TokenM α} (h : Related R action action') :
    Related R (ReadM.nested action) (ReadM.nested action') :=
  fun s => hR.nested (h s)

section Terms

variable {eval eval' : Scope Tokens → TokenM (Datum Tokens)} {skip skip' : TokenM Unit}
  (he : ∀ scope, Related R (eval scope) (eval' scope))
include he

theorem function (scope : Scope Tokens) :
    Related R (application.function eval scope) (application.function eval' scope) := by
  refine hR.related_bind (he scope) fun value => ?_
  cases value with
  | closure params body defining => exact hR.call he scope params body defining
  | number x => exact hR.related_step (.notAFunction _)
  | string text => exact hR.related_step (.notAFunction _)
  | list items => exact hR.related_step (.notAFunction _)

theorem application (hs : Related R skip skip') (scope : Scope Tokens) :
    Related R (application eval skip scope) (application eval' skip' scope) := by
  intro tokens
  cases tokens with
  | nil => exact hR.basic (basic_fail _)
  | cons token rest =>
    cases token with
    | keyword op =>
      have hoperation : Related R (application.operation eval skip scope op)
          (application.operation eval' skip' scope op) := by
        refine hR.related_bind (hR.related_nested (hR.congruence.applyKeyword (he scope) hs op)) ?_
        exact fun value => hR.related_step ((Step.expect _).bind fun _ => .pure value)
      exact hoperation rest
    | delimiter c => exact hR.function he scope _
    | string text => exact hR.function he scope _
    | number x => exact hR.function he scope _
    | atom name => exact hR.function he scope _

/-- A term that is evaluated, with related ways to evaluate and to skip the terms inside. -/
theorem termWith (hs : Related R skip skip') (scope : Scope Tokens) :
    Related R (termWith eval skip scope) (termWith eval' skip' scope) := by
  refine hR.related_bind (hR.related_step (.next _)) fun token => ?_
  split
  · exact hR.related_step (.pure _)
  · exact hR.related_step (.pure _)
  · exact hR.related_step (.lift (basic_lookupName _ _))
  · exact hR.congruence.applyKeyword (he scope) hs _
  · exact hR.related_step (.closure scope)
  · exact hR.application he hs scope
  · exact hR.related_step (.unexpected _)

end Terms

end Structural

namespace Compositional

variable {R : ∀ {α : Type}, CoreM Tokens α → CoreM Tokens α → Prop} (hR : Compositional R)
include hR

theorem related_tooDeep {α : Type} (action : TokenM α) : Related R CoreM.tooDeep.lift action := by
  intro s
  have hbind : (CoreM.tooDeep.lift : TokenM α) s = CoreM.tooDeep := by
    funext limits core
    rfl
  rw [hbind]
  exact hR.tooDeep (action s)

/-- More levels only matter to a term that runs out of the fewer ones. -/
theorem skipWithin {levels levels' : Nat} (h : levels ≤ levels') :
    Related R (skipWithin levels) (skipWithin levels') := by
  induction levels generalizing levels' with
  | zero => exact hR.related_tooDeep _
  | succ levels ih =>
    obtain ⟨levels', rfl⟩ := Nat.exists_eq_add_one_of_ne_zero (by omega : levels' ≠ 0)
    exact hR.related_nested (hR.congruence.skipWith (ih (by omega)))

theorem evaluateWithin {levels levels' : Nat} (h : levels ≤ levels') (scope : Scope Tokens) :
    Related R (evaluateWithin levels scope) (evaluateWithin levels' scope) := by
  induction levels generalizing levels' scope with
  | zero => exact hR.related_tooDeep _
  | succ levels ih =>
    obtain ⟨levels', rfl⟩ := Nat.exists_eq_add_one_of_ne_zero (by omega : levels' ≠ 0)
    have hlevels : levels ≤ levels' := by omega
    exact hR.related_nested (hR.termWith (ih hlevels) (hR.skipWithin hlevels) scope)

end Compositional

end Plain

end BraceLang
