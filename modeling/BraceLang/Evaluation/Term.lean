import BraceLang.Evaluation.Call

/-!
# Evaluating and skipping terms

A program is not parsed before it is evaluated. The first token of a term decides what the
term is, and evaluation takes just the tokens of the term from the cursor:

    term := number | string | atom
          | KEYWORD term ...              as many terms as the keyword takes
          | "{" ["!"] atom ... ":" term "}"
          | "(" KEYWORD term ... ")"
          | "(" term [arg ("," arg) ...] ")"

A term that is skipped has the same extent, found without evaluating it.

Every evaluated, skipped or parenthesised keyword term counts one level of depth, so the
depth that is left bounds the recursion.

* `evaluate`: the value of the term at the cursor.
* `skipTerm`: move the cursor past a term.
* `invoke`: the value of a keyword whose operands stand at the cursor.
-/

namespace BraceLang

namespace EvalM

/-- Do something a number of times. -/
def times : Nat → EvalM Unit → EvalM Unit
  | 0, _ => pure ()
  | n + 1, action => do
    action
    times n action

/-- Skip a term, given how to skip the operands of a keyword. -/
def skipWith (skip : EvalM Unit) : EvalM Unit := do
  match ← next .endOfText with
  | .number _ | .string _ | .atom _ => pure ()
  | .keyword op => times op.arity skip
  | .delimiter '(' => consume (fun run => .closerExpected run.closer) groupStep { closer := ')' }
  | .delimiter '{' => consume (fun run => .closerExpected run.closer) groupStep { closer := '}' }
  | token => unexpected token

/-- Evaluate a term, given how to evaluate and how to skip the terms in it. -/
def termWith (eval : Environment → EvalM Value) (skip : EvalM Unit) (env : Environment) :
    EvalM Value := do
  match ← next .endOfText with
  | .number n => pure (.number n)
  | .string text => pure (.string text)
  | .atom name => lookupName name env
  | .keyword op => applyKeyword (eval env) skip op
  | .delimiter '{' => closure env
  | .delimiter '(' => application eval skip env
  | token => unexpected token

/-- Fail because no level of depth is left. -/
def tooDeep {α : Type} : EvalM α := do throw (.tooDeep (← read).maxDepth)

/-- Skip a term with a number of levels left. -/
def skipWithin : Nat → EvalM Unit
  | 0 => tooDeep
  | levels + 1 => nested (skipWith (skipWithin levels))

/-- Evaluate a term with a number of levels left. -/
def evaluateWithin : Nat → Environment → EvalM Value
  | 0, _ => tooDeep
  | levels + 1, env => nested (termWith (evaluateWithin levels) (skipWithin levels) env)

/-- The number of levels that are left. -/
def levelsLeft : EvalM Nat := do pure ((← read).maxDepth - (← get).depth)

end EvalM

/-- Evaluate the term at the cursor. -/
def evaluate (env : Environment) : EvalM Value := do
  EvalM.evaluateWithin (← EvalM.levelsLeft) env

/-- Move the cursor past a term. -/
def skipTerm : EvalM Unit := do
  EvalM.skipWithin (← EvalM.levelsLeft)

/-- Evaluate a keyword whose operands stand at the cursor. -/
def invoke (op : Keyword) (env : Environment) : EvalM Value :=
  EvalM.applyKeyword (evaluate env) skipTerm op

end BraceLang
