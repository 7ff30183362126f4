import BraceLang.Closure
import BraceLang.Environment
import BraceLang.Rendering

/-!
# The state of an evaluation

Evaluation reads tokens from a cursor, which is a list, and writes cells and slots into the
store. It counts how many terms are under evaluation inside one another. The text table and
the greatest depth stay the same throughout.

Everything that an evaluation did stays done when it fails, the movement of its cursor
included.

* `EvalM.nested`: the depth after an action is the depth before it, whether the action fails
  or not, and the greatest depth is never passed.
* `EvalM.onTokens`: an action on tokens of its own leaves the cursor where it was.
-/

namespace BraceLang

/-- What an evaluation does not change. -/
structure EvalContext where
  texts : TextTable
  maxDepth : Nat

/-- What an evaluation changes. -/
structure EvalState where
  store : Store
  cursor : ListRef
  depth : Nat

/-- Evaluation steps. -/
abbrev EvalM := ReaderT EvalContext (EStateM EvalError EvalState)

namespace EvalM

/-- Fail for the form of the program. -/
def fail {α : Type} (fault : SyntaxFault) : EvalM α := throw (.badSyntax fault)

/-- Work on the store. -/
def ofStoreM {α : Type} (action : StoreM α) : EvalM α
  | _, ⟨store, cursor, depth⟩ =>
    match action store with
    | .ok a store => .ok a ⟨store, cursor, depth⟩
    | .error e store => .error (.ofStore e) ⟨store, cursor, depth⟩

/-- Answer from the store. -/
def ask {α : Type} (question : Store → Except StoreError α) : EvalM α :=
  ofStoreM (Store.read question)

/-- Answer from the store and the text table. -/
def askMemory {α : Type} (question : Memory → Except EvalError α) : EvalM α := do
  MonadExcept.ofExcept (question ⟨(← get).store, (← read).texts⟩)

/-- The text of a reference. -/
def resolve (ref : TextRef) : EvalM String :=
  askMemory fun m => (m.texts.resolve ref).mapError .ofStore

/-! ## Depth -/

/-- Run an action one level deeper, unless the greatest depth is reached. -/
def nested {α : Type} (action : EvalM α) : EvalM α
  | context, ⟨store, cursor, depth⟩ =>
    if context.maxDepth ≤ depth then
      .error (.tooDeep context.maxDepth) ⟨store, cursor, depth⟩
    else
      match action context ⟨store, cursor, depth + 1⟩ with
      | .ok a ⟨store, cursor, depth⟩ => .ok a ⟨store, cursor, depth - 1⟩
      | .error e ⟨store, cursor, depth⟩ => .error e ⟨store, cursor, depth - 1⟩

/-! ## Tokens -/

/-- Move the cursor. -/
def moveTo (cursor : ListRef) : EvalM Unit := modify fun st => { st with cursor }

/-- The token at the cursor and the list behind it, or nothing at the end. -/
def look? : EvalM (Option (Value × ListRef)) := do
  let cursor := (← get).cursor
  ask (·.split cursor)

/-- Take the token at the cursor. The fault is that of the end of the list. -/
def next (atEnd : SyntaxFault) : EvalM Value := do
  match ← look? with
  | some (token, rest) =>
    moveTo rest
    pure token
  | none => fail atEnd

/-- Run an action on other tokens, and say which of them it left. -/
def onTokens {α : Type} (tokens : ListRef) (action : EvalM α) : EvalM (α × ListRef)
  | context, ⟨store, cursor, depth⟩ =>
    match action context ⟨store, tokens, depth⟩ with
    | .ok a ⟨store, left, depth⟩ => .ok (a, left) ⟨store, cursor, depth⟩
    | .error e ⟨store, _, depth⟩ => .error e ⟨store, cursor, depth⟩

/-- Fail for a token that does not belong here. -/
def unexpected {α : Type} (token : Value) : EvalM α := do
  let text ← askMemory (·.render token)
  fail (.notExpected text)

end EvalM

end BraceLang
