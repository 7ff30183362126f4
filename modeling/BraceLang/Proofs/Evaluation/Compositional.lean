import BraceLang.Proofs.Evaluation.Slots
import BraceLang.Proofs.Store.Lists

/-!
# Relations that evaluation keeps

The functions of an evaluation are given the functions for the terms inside. A relation between
programs that is kept when programs are put together relates a term to itself whenever the functions
for the terms inside are related, and so it relates an evaluation to itself by induction on the
levels.

* `EvalM.Uniform`, `EvalM.Sequential`, `EvalM.Compositional`: what a relation has to keep, so that
  calls, terms and evaluations are related.
* `EvalM.Uniform.sequential`: calls.
* `EvalM.Sequential.termBy`, `EvalM.Sequential.skipWith`: terms.
* `EvalM.Compositional.evaluateWithin`, `EvalM.Compositional.skipWithin`: the two recursions.
* `EvalM.Compositional.evaluate`, `EvalM.Compositional.skipTerm`, `EvalM.Compositional.invoke`:
  evaluating and skipping as they are called.
-/

namespace BraceLang

namespace EvalM

/-! ## Relations between programs -/

/-- A relation between programs that sequences and calls keep, and in which basic steps are related
to themselves. -/
structure Sequential (R : ∀ {α : Type}, EvalM α → EvalM α → Prop) : Prop where
  basic : ∀ {α : Type} {m : EvalM α}, Basic m → R m m
  bind : ∀ {α β : Type} {m m' : EvalM α} {f f' : α → EvalM β}, R m m' → (∀ a, R (f a) (f' a)) →
    R (m >>= f) (m' >>= f')
  call : ∀ {eval eval' : Environment → EvalM Value}, (∀ env, R (eval env) (eval' env)) →
    ∀ env callee, R (call eval env callee) (call eval' env callee)

/-- A relation that levels of depth keep too, whether there is one left or not. -/
structure Compositional (R : ∀ {α : Type}, EvalM α → EvalM α → Prop) : Prop
    extends Sequential R where
  nested : ∀ {α : Type} {m m' : EvalM α}, R m m' → R (nested m) (nested m')
  tooDeep : ∀ {α : Type}, R (tooDeep : EvalM α) tooDeep

/-- A relation that has no regard for the slots of a call and for the cursor. -/
structure Uniform (R : ∀ {α : Type}, EvalM α → EvalM α → Prop) : Prop where
  basic : ∀ {α : Type} {m : EvalM α}, Basic m → R m m
  bind : ∀ {α β : Type} {m m' : EvalM α} {f f' : α → EvalM β}, R m m' → (∀ a, R (f a) (f' a)) →
    R (m >>= f) (m' >>= f')
  ofStoreM : ∀ {α : Type} {action : StoreM α}, Keeps Store.Grows action →
    R (ofStoreM action) (ofStoreM action)
  onTokens : ∀ {α : Type} {m m' : EvalM α} (tokens : ListRef), R m m' →
    R (onTokens tokens m) (onTokens tokens m')

/-! ## Calls -/

namespace Uniform

variable {R : ∀ {α : Type}, EvalM α → EvalM α → Prop} (hR : Uniform R)
  {eval eval' : Environment → EvalM Value} (he : ∀ env, R (eval env) (eval' env))
include hR he

theorem bindActual (env : Environment) (formal : Formal) :
    R (bindActual eval env formal) (bindActual eval' env formal) := by
  obtain ⟨mode, name⟩ := formal
  cases mode with
  | eager => exact hR.bind (he env) fun value => hR.basic (basic_separator.bind fun _ => .pure _)
  | deferred =>
    refine hR.bind (hR.basic basic_captureArgument) fun captured => ?_
    exact hR.bind (hR.ofStoreM (Store.keeps_newSlot _ _)) fun _ => hR.basic (.pure _)

theorem bindActuals (env : Environment) (formals : List Formal) :
    R (bindActuals eval env formals) (bindActuals eval' env formals) := by
  induction formals with
  | nil => exact hR.basic (.pure _)
  | cons formal formals ih =>
    refine hR.bind (hR.bindActual he env formal) fun bound => ?_
    refine hR.bind (hR.basic (basic_checkSeparator _ _)) fun _ => ?_
    exact hR.bind ih fun _ => hR.basic (.pure _)

theorem settle (env : Environment) (actual : Actual) :
    R (settle eval env actual) (settle eval' env actual) := by
  cases actual with
  | evaluated value => exact hR.basic (.pure ())
  | captured ref =>
    refine hR.bind (hR.basic (basic_ask fun s => s.failsWith_slot ref)) fun slot => ?_
    refine hR.bind (hR.onTokens slot.tokens (he env)) fun result => ?_
    dsimp only
    split
    · exact hR.ofStoreM (Store.keeps_fill _ _)
    · exact hR.basic ((basic_resolve _).bind fun _ => basic_fail _)

theorem settleAll (env : Environment) (actuals : List (TextRef × Actual)) :
    R (actuals.forM fun (_, actual) => EvalM.settle eval env actual)
      (actuals.forM fun (_, actual) => EvalM.settle eval' env actual) := by
  induction actuals with
  | nil => exact hR.basic (.pure ())
  | cons entry actuals ih => exact hR.bind (hR.settle he env entry.2) fun _ => ih

theorem runBody (env : Environment) (body : ListRef) :
    R (runBody eval env body) (runBody eval' env body) := by
  refine hR.bind (hR.onTokens body (he env)) fun result => hR.basic ?_
  dsimp only
  split
  · exact .pure _
  · exact basic_fail _

theorem call (env : Environment) (callee : Closure) :
    R (call eval env callee) (call eval' env callee) := by
  refine hR.bind (hR.basic (basic_askMemory fun m => callee.failsWith_formalList m.store))
    fun formals => ?_
  dsimp only
  split
  · exact hR.bind (hR.basic (basic_expect _)) fun _ => hR.runBody he _ _
  · refine hR.bind (hR.bindActuals he env _) fun actuals => ?_
    refine hR.bind (hR.ofStoreM (Environment.keeps_extend _ _)) fun inner => ?_
    exact hR.bind (hR.settleAll he inner actuals) fun _ => hR.runBody he inner _

omit he in
theorem sequential : Sequential R where
  basic := hR.basic
  bind := hR.bind
  call := hR.call

end Uniform

/-! ## Terms -/

section Levels

variable (enter : EvalM Value → EvalM Value) (eval : Environment → EvalM Value) (skip : EvalM Unit)
  (env : Environment)

/-- `application`, given how a level of depth is entered. -/
def applicationBy : EvalM Value := do
  match ← look? with
  | none => fail .endOfText
  | some (.keyword op, rest) =>
    moveTo rest
    let value ← enter (applyKeyword (eval env) skip op)
    expect ')'
    pure value
  | some _ =>
    match ← eval env with
    | .closure parts =>
      let callee ← askMemory (Closure.ofList ·.store parts)
      call eval env callee
    | other => throw (.notAFunction (← askMemory (·.render other)))

/-- `termWith`, given how a level of depth is entered. -/
def termBy : EvalM Value := do
  match ← next .endOfText with
  | .number n => pure (.number n)
  | .string text => pure (.string text)
  | .atom name => lookupName name env
  | .keyword op => applyKeyword (eval env) skip op
  | .delimiter '{' => closure env
  | .delimiter '(' => applicationBy enter eval skip env
  | token => unexpected token

theorem termBy_nested : termBy nested eval skip env = termWith eval skip env := rfl

end Levels

namespace Sequential

variable {R : ∀ {α : Type}, EvalM α → EvalM α → Prop} (hR : Sequential R)
include hR

theorem map {α β : Type} {m m' : EvalM α} (h : R m m') (f : α → β) :
    R (f <$> m) (f <$> m') := by
  rw [← bind_pure_comp, ← bind_pure_comp]
  exact hR.bind h fun a => hR.basic (.pure _)

section Operations

variable {operand operand' : EvalM Value} {skip skip' : EvalM Unit}

theorem numberOperand (ho : R operand operand') (op : Keyword) :
    R (numberOperand operand op) (numberOperand operand' op) := by
  refine hR.bind ho fun value => hR.basic ?_
  cases value.number? with
  | some n => exact .pure n
  | none => exact basic_mismatch _ _ _

theorem listOperand (ho : R operand operand') (op : Keyword) :
    R (listOperand operand op) (listOperand operand' op) := by
  refine hR.bind ho fun value => hR.basic ?_
  cases value.list? with
  | some items => exact .pure items
  | none => exact basic_mismatch _ _ _

theorem equalOperands (ho : R operand operand') (op : Keyword) :
    R (equalOperands operand op) (equalOperands operand' op) := by
  refine hR.bind ho fun x => hR.bind ho fun y => hR.basic ?_
  split
  · exact .pure _
  · exact .pure _
  · exact .pure _
  · split
    · exact basic_mismatch _ _ _
    · exact basic_mismatch _ _ _

theorem condition (ho : R operand operand') (hs : R skip skip') :
    R (condition operand skip) (condition operand' skip') := by
  refine hR.bind (hR.numberOperand ho _) fun flag => ?_
  split
  · exact hR.bind hs fun _ => ho
  · exact hR.bind ho fun value => hR.bind hs fun _ => hR.basic (.pure value)

theorem applyKeyword (ho : R operand operand') (hs : R skip skip') (op : Keyword) :
    R (applyKeyword operand skip op) (applyKeyword operand' skip' op) := by
  unfold EvalM.applyKeyword
  split
  · exact hR.bind (hR.numberOperand ho _) fun x => hR.bind (hR.numberOperand ho _) fun y =>
      hR.basic (.pure _)
  · exact hR.map (hR.equalOperands ho _) _
  · exact hR.map (hR.equalOperands ho _) _
  · exact hR.condition ho hs
  · refine hR.bind ho fun item => hR.bind (hR.listOperand ho _) fun items => hR.basic ?_
    exact (Basic.ofStoreM (Store.leavesSlots_push items item)).map
  · refine hR.bind (hR.listOperand ho _) fun items => hR.basic ?_
    refine (basic_ask fun s => s.failsWith_head? items).bind fun head => ?_
    cases head with
    | some head => exact .pure head
    | none => exact basic_mismatch _ _ _
  · refine hR.bind (hR.listOperand ho _) fun items => hR.basic ?_
    exact (basic_ask fun s => s.failsWith_tail items).map
  · refine hR.bind ho fun value => hR.basic ?_
    split
    · exact .pure _
    · exact .pure _
  · exact hR.basic (.pure _)

end Operations

section Terms

variable {eval eval' : Environment → EvalM Value} {skip skip' : EvalM Unit}

theorem times {action action' : EvalM Unit} (h : R action action') (n : Nat) :
    R (times n action) (times n action') := by
  induction n with
  | zero => exact hR.basic (.pure ())
  | succ n ih => exact hR.bind h fun _ => ih

/-- A term that is skipped, with related ways to skip the terms inside. -/
theorem skipWith (hs : R skip skip') : R (skipWith skip) (skipWith skip') := by
  refine hR.bind (hR.basic (basic_next _)) fun token => ?_
  split
  · exact hR.basic (.pure ())
  · exact hR.basic (.pure ())
  · exact hR.basic (.pure ())
  · exact hR.times hs _
  · exact hR.basic (basic_consume _ _ _)
  · exact hR.basic (basic_consume _ _ _)
  · exact hR.basic (basic_unexpected _)

variable {enter enter' : EvalM Value → EvalM Value}
  (henter : ∀ {m m' : EvalM Value}, R m m' → R (enter m) (enter' m'))
  (he : ∀ env, R (eval env) (eval' env)) (hs : R skip skip')
include henter he hs

theorem applicationBy (env : Environment) :
    R (applicationBy enter eval skip env) (applicationBy enter' eval' skip' env) := by
  refine hR.bind (hR.basic basic_look?) fun found => ?_
  split
  · exact hR.basic (basic_fail _)
  · refine hR.bind (hR.basic (.moveTo _)) fun _ => ?_
    refine hR.bind (henter (hR.applyKeyword (he env) hs _)) fun value => hR.basic ?_
    exact (basic_expect ')').bind fun _ => .pure value
  · refine hR.bind (he env) fun callee => ?_
    split
    · refine hR.bind (hR.basic ?_) fun callee => hR.call he env callee
      exact basic_askMemory fun m => Closure.failsWith_ofList m.store _
    · refine hR.basic ((basic_askMemory fun m => ?_).bind fun _ => .throw rfl)
      exact m.failsWith_render _

/-- A term that is evaluated, with related ways to evaluate and to skip the terms inside and to
enter a level. -/
theorem termBy (env : Environment) :
    R (termBy enter eval skip env) (termBy enter' eval' skip' env) := by
  refine hR.bind (hR.basic (basic_next _)) fun token => ?_
  split
  · exact hR.basic (.pure _)
  · exact hR.basic (.pure _)
  · exact hR.basic (basic_lookupName _ _)
  · exact hR.applyKeyword (he env) hs _
  · exact hR.basic (basic_closure _)
  · exact hR.applicationBy henter he hs env
  · exact hR.basic (basic_unexpected _)

end Terms

end Sequential

theorem basic_levelsLeft : Basic levelsLeft :=
  Basic.read.bind fun _ => Basic.get.bind fun _ => .pure _

namespace Compositional

variable {R : ∀ {α : Type}, EvalM α → EvalM α → Prop} (hR : Compositional R)
include hR

/-- A term that is evaluated, with related ways to evaluate and to skip the terms inside. -/
theorem termWith {eval eval' : Environment → EvalM Value} {skip skip' : EvalM Unit}
    (he : ∀ env, R (eval env) (eval' env)) (hs : R skip skip') (env : Environment) :
    R (termWith eval skip env) (termWith eval' skip' env) := by
  rw [← termBy_nested, ← termBy_nested]
  exact hR.termBy hR.nested he hs env

theorem skipWithin (levels : Nat) : R (EvalM.skipWithin levels) (EvalM.skipWithin levels) := by
  induction levels with
  | zero => exact hR.tooDeep
  | succ levels ih => exact hR.nested (hR.skipWith ih)

theorem evaluateWithin (levels : Nat) (env : Environment) :
    R (EvalM.evaluateWithin levels env) (EvalM.evaluateWithin levels env) := by
  induction levels generalizing env with
  | zero => exact hR.tooDeep
  | succ levels ih => exact hR.nested (hR.termWith ih (hR.skipWithin levels) env)

theorem evaluate (env : Environment) : R (BraceLang.evaluate env) (BraceLang.evaluate env) :=
  hR.bind (hR.basic basic_levelsLeft) fun levels => hR.evaluateWithin levels env

theorem skipTerm : R BraceLang.skipTerm BraceLang.skipTerm :=
  hR.bind (hR.basic basic_levelsLeft) hR.skipWithin

theorem invoke (op : Keyword) (env : Environment) :
    R (BraceLang.invoke op env) (BraceLang.invoke op env) :=
  hR.applyKeyword (hR.evaluate env) hR.skipTerm op

end Compositional

end EvalM

end BraceLang
