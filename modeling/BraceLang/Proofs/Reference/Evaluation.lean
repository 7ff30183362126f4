import BraceLang.Proofs.Plain.Bodies
import BraceLang.Proofs.Reference.Term

/-!
# A semantics on syntax trees

The value of a syntax tree in a scope, in big steps. A call has two phases: eager arguments are
evaluated from left to right where the call stands, and each deferred argument gets a slot. Then the
deferred arguments are evaluated in the order of the formal parameters, where the closure was made
and with the new frame in front, and each of them fills its slot. Then the body is evaluated there.

Every term that is evaluated counts one level of depth, and so do the operands of a keyword in
parentheses and the terms in a branch that is not taken, which are passed without being evaluated.
Cells are counted as the evaluator takes them.

* `Reference.evaluateWithin`: the value of a term with a number of levels left.
* `Reference.evaluate`: the value of a term.
-/

namespace BraceLang.Reference

open Plain

/-- Evaluation steps on syntax trees. -/
abbrev TreeM := CoreM Term

section Operands

variable (eval : Term → TreeM (Datum Term)) (pass : Term → TreeM Unit)

/-- Evaluate the next one of some operands. -/
def operand : ReadM (List Term) Term (Datum Term)
  | [] => CoreM.fail .endOfText
  | e :: operands => do pure (← eval e, operands)

/-- Pass the next one of some operands. -/
def passOperand : ReadM (List Term) Term Unit
  | [] => CoreM.fail .endOfText
  | e :: operands => do pure (← pass e, operands)

/-- The operation of a keyword on its operands. -/
def operation (op : Keyword) (operands : Fin op.arity → Term) : TreeM (Datum Term) := do
  let (value, _) ← applyKeyword (operand eval) (passOperand pass) op (List.ofFn operands)
  pure value

end Operands

section Calls

variable (eval : Scope Term → Term → TreeM (Datum Term))

/-- Evaluate an argument, or give it a slot. -/
def bindActual (scope : Scope Term) (param : Param) (argument : Term) : TreeM (Plain.Actual Term) :=
  match param.mode with
  | .eager => do pure (.evaluated (← eval scope argument))
  | .deferred => do
    CoreM.charge argument.tokens.length
    pure (.captured (← CoreM.newSlot) argument)

/-- There are as many parameters left as arguments, or some of both. -/
def checkCount : List Param → List Term → TreeM Unit
  | [], _ :: _ => CoreM.fail .tooManyArguments
  | _ :: _, [] => CoreM.fail .tooFewArguments
  | _, _ => pure ()

/-- Bind formal parameters to arguments, one each. -/
def bindActuals (scope : Scope Term) : List Param → List Term →
    TreeM (List (List Char × Plain.Actual Term))
  | param :: params, argument :: arguments => do
    let actual ← bindActual eval scope param argument
    checkCount params arguments
    let actuals ← bindActuals scope params arguments
    pure ((param.name, actual) :: actuals)
  | _, _ => pure []

/-- Evaluate a deferred argument and fill its slot. -/
def settle (scope : Scope Term) : Plain.Actual Term → TreeM Unit
  | .evaluated _ => pure ()
  | .captured slot argument => do CoreM.fill slot (← eval scope argument)

/-- Evaluate the deferred arguments in their order. -/
def settleAll (scope : Scope Term) (actuals : List (List Char × Plain.Actual Term)) : TreeM Unit :=
  actuals.forM fun (_, actual) => settle eval scope actual

/-- The failure of a call without arguments of a function that has a parameter. It has no value. -/
def missing (param : Param) : TreeM Empty :=
  match param.mode with
  | .eager => CoreM.nested (CoreM.fail (.notExpected ")"))
  | .deferred => CoreM.fail .missingArgument

/-- Call a function. -/
def call (scope : Scope Term) (params : List Param) (body : Term) (defining : Scope Term)
    (arguments : List Term) : TreeM (Datum Term) :=
  match params, arguments with
  | [], [] => eval defining body
  | [], _ :: _ => CoreM.fail (.closerExpected ')')
  | param :: _, [] => Empty.elim <$> missing param
  | params, arguments => do
    let actuals ← bindActuals eval scope params arguments
    let inner ← extend defining actuals
    settleAll eval inner actuals
    eval inner body

/-- The text of a value. -/
def render (value : Datum Term) : TreeM String := do
  let slots := Slots.mapBody Term.tokens (← get).slots
  pure (String.ofList ((value.mapBody Term.tokens).full slots))

/-- Call a value, which has to be a function. -/
def apply (scope : Scope Term) (arguments : List Term) : Datum Term → TreeM (Datum Term)
  | .closure params body defining => call eval scope params body defining arguments
  | other => do throw (.notAFunction (← render other))

end Calls

/-! ## Terms -/

/-- Make a closure. -/
def closure (scope : Scope Term) (params : List Param) (body : Term) : TreeM (Datum Term) := do
  CoreM.charge (2 * params.length)
  CoreM.charge body.tokens.length
  CoreM.charge 3
  pure (.closure params body scope)

/-- Pass a term, given how to pass the operands of a keyword. -/
def passWith (pass : Term → TreeM Unit) : Term → TreeM Unit
  | .operation _ operands => (List.ofFn operands).forM pass
  | .primary _ => pure ()

/-- Evaluate a term, given how to evaluate and how to pass the terms in it. -/
def termWith (eval : Scope Term → Term → TreeM (Datum Term)) (pass : Term → TreeM Unit)
    (scope : Scope Term) : Term → TreeM (Datum Term)
  | .operation op operands => operation (eval scope) pass op operands
  | .primary (.number n) => pure (.number n)
  | .primary (.string text) => pure (.string text)
  | .primary (.atom name) => CoreM.lookupName name scope
  | .primary (.closure params body) => closure scope params body
  | .primary (.group op operands) => CoreM.nested (operation (eval scope) pass op operands)
  | .primary (.call callee _ arguments) => do
    let function ← eval scope (.primary callee)
    apply eval scope (List.ofFn arguments) function

/-- Pass a term with a number of levels left. -/
def passWithin : Nat → Term → TreeM Unit
  | 0, _ => CoreM.tooDeep
  | levels + 1, e => CoreM.nested (passWith (passWithin levels) e)

/-- Evaluate a term with a number of levels left. -/
def evaluateWithin : Nat → Scope Term → Term → TreeM (Datum Term)
  | 0, _, _ => CoreM.tooDeep
  | levels + 1, scope, e =>
    CoreM.nested (termWith (evaluateWithin levels) (passWithin levels) scope e)

/-- Evaluate a term. -/
def evaluate (scope : Scope Term) (e : Term) : TreeM (Datum Term) := do
  evaluateWithin (← CoreM.levelsLeft) scope e

end BraceLang.Reference
