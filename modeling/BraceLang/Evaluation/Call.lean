import BraceLang.Evaluation.Operation
import BraceLang.Evaluation.Scan

/-!
# Closures and calls

A closure keeps the tokens of its body together with the environment in which it stands. A
call pairs the formal parameters of a closure with actual ones. Eager arguments are evaluated
at once, in the environment of the call. Deferred ones are captured as tokens and put into
slots; when all parameters are bound, they are evaluated in their order in the new
environment, which binds them already, so that an argument can refer to itself and to its
neighbours. Then the body is evaluated there.

The functions of this module are given the function that evaluates a term.

* `EvalM.bindActuals`: the arguments of a call, with as many separators as there have to be.
* `EvalM.application`: a call or a keyword in parentheses.
-/

namespace BraceLang

/-- What a formal parameter is bound to. -/
inductive Actual where
  | evaluated (value : Value)
  | captured (slot : SlotRef)

/-- The entry of an environment for an actual parameter. -/
def Actual.toValue : Actual → Value
  | evaluated value => value
  | captured slot => .deferred slot

namespace EvalM

/-- Make the closure whose opening brace has been taken. -/
def closure (env : Environment) : EvalM Value := do
  let formals ← consume (fun _ => .endOfText) formalStep {}
  let body ← consume (fun _ => .unclosedClosure) bodyStep {}
  ofStoreM do
    let formals ← Store.ofList formals
    let body ← Store.ofList body
    Closure.build ⟨formals, body, env.frames⟩

/-- Take a delimiter that has to come next. -/
def expect (delimiter : Char) : EvalM Unit := do
  match ← look? with
  | some (token, rest) =>
    if token.isDelimiter delimiter then moveTo rest else fail (.closerExpected delimiter)
  | none => fail (.closerExpected delimiter)

/-- Take the separator that has to follow an argument. -/
def separator : EvalM Separator := do
  match ← look? with
  | some (token, rest) =>
    match Separator.ofToken? token with
    | some separator =>
      moveTo rest
      pure separator
    | none => fail .separatorExpected
  | none => fail .separatorExpected

/-- Take the tokens of an argument and the separator behind it. -/
def captureArgument : EvalM (ListRef × Separator) := do
  let (tokens, separator) ← consume (fun _ => .endInArgument) argumentStep {}
  let tokens ← ofStoreM (Store.ofList tokens)
  pure (tokens, separator)

/-- The value of a name. A deferred parameter has the value of its argument, once that has
been evaluated. -/
def lookupName (name : TextRef) (env : Environment) : EvalM Value := do
  match ← ask (env.lookup · name) with
  | .absent => throw (.undefinedVariable (← resolve name))
  | .deferred slot =>
    match (← ask (·.slot slot)).value? with
    | some value => pure value
    | none => throw (.unresolvedDeferred (← resolve name))
  | value => pure value

section Calls

variable (eval : Environment → EvalM Value)

/-- Evaluate or capture an argument, and take the separator behind it. -/
def bindActual (env : Environment) (formal : Formal) : EvalM (Actual × Separator) :=
  match formal.mode with
  | .eager => do
    let value ← eval env
    pure (.evaluated value, ← separator)
  | .deferred => do
    let (tokens, separator) ← captureArgument
    let slot ← ofStoreM (Store.newSlot formal.name tokens)
    pure (.captured slot, separator)

/-- A parenthesis has to follow the last argument, and a comma any other one. -/
def checkSeparator (last : Bool) : Separator → EvalM Unit
  | .close => if last then pure () else fail .tooFewArguments
  | .comma => if last then fail .tooManyArguments else pure ()

/-- Bind formal parameters to arguments, one each. -/
def bindActuals (env : Environment) : List Formal → EvalM (List (TextRef × Actual))
  | [] => pure []
  | formal :: formals => do
    let (actual, separator) ← bindActual eval env formal
    checkSeparator formals.isEmpty separator
    let actuals ← bindActuals env formals
    pure ((formal.name, actual) :: actuals)

/-- Evaluate a captured argument, which has to be a single term, and fill its slot. -/
def settle (env : Environment) : Actual → EvalM Unit
  | .evaluated _ => pure ()
  | .captured ref => do
    let slot ← ask (·.slot ref)
    let (value, left) ← onTokens slot.tokens (eval env)
    if left.isEmpty then ofStoreM (Store.fill ref value)
    else fail (.trailingArgument (← resolve slot.name))

/-- Evaluate the body of a function, which has to be a single term. -/
def runBody (env : Environment) (body : ListRef) : EvalM Value := do
  let (value, left) ← onTokens body (eval env)
  if left.isEmpty then pure value else fail .trailingBody

/-- Call a function whose arguments stand at the cursor. -/
def call (env : Environment) (callee : Closure) : EvalM Value := do
  let formals ← askMemory (callee.formalList ·.store)
  let defining : Environment := ⟨callee.env⟩
  match formals with
  | [] =>
    expect ')'
    runBody eval defining callee.body
  | _ =>
    let actuals ← bindActuals eval env formals
    let bindings := actuals.map fun (name, actual) => (name, actual.toValue)
    let inner ← ofStoreM (defining.extend bindings)
    actuals.forM fun (_, actual) => settle eval inner actual
    runBody eval inner callee.body

/-- Evaluate what stands in parentheses, of which the first has been taken: a keyword with its
operands, or a function with its arguments. -/
def application (skip : EvalM Unit) (env : Environment) : EvalM Value := do
  match ← look? with
  | none => fail .endOfText
  | some (.keyword op, rest) =>
    moveTo rest
    let value ← nested (applyKeyword (eval env) skip op)
    expect ')'
    pure value
  | some _ =>
    match ← eval env with
    | .closure parts =>
      let callee ← askMemory (Closure.ofList ·.store parts)
      call eval env callee
    | other => throw (.notAFunction (← askMemory (·.render other)))

end Calls

end EvalM

end BraceLang
