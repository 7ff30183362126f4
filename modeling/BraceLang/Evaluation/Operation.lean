import BraceLang.Evaluation.Monad

/-!
# Operations of keywords

A keyword evaluates its operands from the cursor, from left to right, and each is checked
before the next one is evaluated. The condition is the exception: it evaluates the branch
that is taken and skips the other one. The functions of this module are given the action that
evaluates an operand and the one that skips it.

* `Keyword.numeric?`: the keywords that are functions of two numbers.
* `applyKeyword`: the operation of any keyword.
-/

namespace BraceLang

/-- The function of two numbers that a keyword stands for. A comparison gives a truth value. The
greater and the lesser of two numbers are the second one unless the first is greater, or
lesser. -/
def Keyword.numeric? : Keyword → Option (Float → Float → Float)
  | add => some fun x y => x + y
  | sub => some fun x y => x - y
  | mul => some fun x y => x * y
  | div => some fun x y => x / y
  | pow => some fun x y => x.pow y
  | lt => some fun x y => Value.truth (x < y)
  | le => some fun x y => Value.truth (x ≤ y)
  | gt => some fun x y => Value.truth (y < x)
  | ge => some fun x y => Value.truth (y ≤ x)
  | max => some fun x y => if y < x then x else y
  | min => some fun x y => if x < y then x else y
  | _ => none

namespace EvalM

/-- Fail for an operand of the wrong kind. -/
def mismatch {α : Type} (op : Keyword) (expected : Expectation) (found : String) : EvalM α :=
  throw (.typeMismatch op expected found)

variable (operand : EvalM Value) (skip : EvalM Unit)

/-- Evaluate an operand that has to be a number. -/
def numberOperand (op : Keyword) : EvalM Float := do
  let value ← operand
  match value.number? with
  | some n => pure n
  | none => mismatch op .number value.typeName

/-- Evaluate an operand that has to be a list. -/
def listOperand (op : Keyword) : EvalM ListRef := do
  let value ← operand
  match value.list? with
  | some items => pure items
  | none => mismatch op .list value.typeName

/-- Whether two operands are equal. Numbers are compared with numbers, strings with strings
and atoms with atoms; nothing else can be compared. -/
def equalOperands (op : Keyword) : EvalM Bool := do
  let x ← operand
  let y ← operand
  match x, y with
  | .number a, .number b => pure (a == b)
  | .string a, .string b => pure (a == b)
  | .atom a, .atom b => pure (a == b)
  | _, _ =>
    if x.typeName = y.typeName then mismatch op .comparable x.typeName
    else mismatch op .sameType s!"{x.typeName} and {y.typeName}"

/-- Evaluate the second operand if the first one is not zero, else the third one. -/
def condition : EvalM Value := do
  let flag ← numberOperand operand .cond
  if flag == 0 then
    skip
    operand
  else
    let value ← operand
    skip
    pure value

/-- Evaluate a keyword whose operands stand at the cursor. -/
def applyKeyword (op : Keyword) : EvalM Value :=
  match op.numeric?, op with
  | some f, _ => do
    let x ← numberOperand operand op
    let y ← numberOperand operand op
    pure (.number (f x y))
  | none, .eq => Value.ofBool <$> equalOperands operand op
  | none, .ne => (fun equal => Value.ofBool !equal) <$> equalOperands operand op
  | none, .cond => condition operand skip
  | none, .push => do
    let item ← operand
    let items ← listOperand operand op
    Value.list <$> ofStoreM (Store.push items item)
  | none, .tos => do
    let items ← listOperand operand op
    match ← ask (·.head? items) with
    | some head => pure head
    | none => mismatch op .nonEmptyList "empty list"
  | none, .bos => do
    let items ← listOperand operand op
    Value.list <$> ask (·.tail items)
  | none, .isNil => do
    match ← operand with
    | .list items => pure (.ofBool items.isEmpty)
    | _ => pure (.ofBool false)
  | none, _ => pure (.list .empty)

end EvalM

end BraceLang
