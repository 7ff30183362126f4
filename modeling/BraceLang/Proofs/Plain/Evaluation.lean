import BraceLang.Evaluation.Operation
import BraceLang.Proofs.Plain.Core

/-!
# Evaluation without a memory

Terms are evaluated as the evaluator does it, but on token lists and values that are written out.
The parts of a program that are not evaluated where they stand are split off the token list by
functions on lists.

Every cell that the evaluator writes is charged for, so that the two run out of cells at the same
point.

* `Plain.numberOf?`: what the keywords on two numbers give, which is what the evaluator computes.
* `Plain.applyKeyword`: the operation of any keyword, on whatever its operands are read from.
* `Plain.splitFormals`, `Plain.splitBody`, `Plain.splitArgument`, `Plain.splitGroups`: the parts of
  a token list that are not evaluated at once.
* `Plain.evaluateWithin`: the value of the term in front of a token list, and the rest of the list.
* `Plain.run`: the text of the value of a text.
-/

namespace BraceLang.Plain

/-! ## Operations of keywords -/

/-- The number that a keyword makes of two numbers. -/
def numberOf? : Keyword → Option (Float → Float → Float)
  | .add => some fun x y => x + y
  | .sub => some fun x y => x - y
  | .mul => some fun x y => x * y
  | .div => some fun x y => x / y
  | .pow => some fun x y => x.pow y
  | .lt => some fun x y => if x < y then 1 else 0
  | .le => some fun x y => if x ≤ y then 1 else 0
  | .gt => some fun x y => if x > y then 1 else 0
  | .ge => some fun x y => if x ≥ y then 1 else 0
  | .max => some fun x y => if x > y then x else y
  | .min => some fun x y => if x < y then x else y
  | .eq | .ne | .cond | .nil | .push | .tos | .bos | .isNil => none

/-- The evaluator computes these numbers. -/
theorem numeric?_eq_numberOf? (op : Keyword) : op.numeric? = numberOf? op := by
  cases op <;> simp [Keyword.numeric?, numberOf?, Value.truth]

section Operations

variable {σ β : Type} (operand : ReadM σ β (Datum β)) (skip : ReadM σ β Unit)

def numberOperand (op : Keyword) : ReadM σ β Float := do
  let value ← operand
  match value.number? with
  | some n => pure n
  | none => (CoreM.mismatch op .number value.typeName).lift

def listOperand (op : Keyword) : ReadM σ β (List (Datum β)) := do
  let value ← operand
  match value.list? with
  | some items => pure items
  | none => (CoreM.mismatch op .list value.typeName).lift

def equalOperands (op : Keyword) : ReadM σ β Bool := do
  let x ← operand
  let y ← operand
  match x, y with
  | .number a, .number b => pure (a == b)
  | .string a, .string b => pure (a == b)
  | _, _ =>
    if x.typeName = y.typeName then (CoreM.mismatch op .comparable x.typeName).lift
    else (CoreM.mismatch op .sameType s!"{x.typeName} and {y.typeName}").lift

def condition : ReadM σ β (Datum β) := do
  let flag ← numberOperand operand .cond
  if flag == 0 then
    skip
    operand
  else
    let value ← operand
    skip
    pure value

/-- Evaluate a keyword with the operands that are read. -/
def applyKeyword (op : Keyword) : ReadM σ β (Datum β) :=
  match numberOf? op, op with
  | some f, _ => do
    let x ← numberOperand operand op
    let y ← numberOperand operand op
    pure (.number (f x y))
  | none, .eq => Datum.ofBool <$> equalOperands operand op
  | none, .ne => (fun equal => Datum.ofBool !equal) <$> equalOperands operand op
  | none, .cond => condition operand skip
  | none, .push => do
    let item ← operand
    let items ← listOperand operand op
    (CoreM.charge 1).lift
    pure (.list (item :: items))
  | none, .tos => do
    match ← listOperand operand op with
    | head :: _ => pure head
    | [] => (CoreM.mismatch op .nonEmptyList "empty list").lift
  | none, .bos => do
    let items ← listOperand operand op
    pure (.list items.tail)
  | none, .isNil => do
    match ← operand with
    | .list items => pure (.ofBool items.isEmpty)
    | _ => pure (.ofBool false)
  | none, _ => pure (.list [])

end Operations

/-! ## Parts of a token list -/

/-- Formal parameters up to the colon. The flag says that an exclamation mark came last. -/
def splitFormals : Bool → Tokens → Except FormFault (List Param × Tokens)
  | _, [] => .error .endOfText
  | false, .delimiter ':' :: rest => .ok ([], rest)
  | false, .delimiter '!' :: rest => splitFormals true rest
  | marked, .atom name :: rest => do
    let (params, rest) ← splitFormals false rest
    pure (⟨if marked then .deferred else .eager, name⟩ :: params, rest)
  | _, _ => .error ⟨.formalExpected, rfl⟩

/-- A body up to its closing brace, with a number of open braces in it. -/
def splitBody : Nat → Tokens → Except FormFault (Tokens × Tokens)
  | _, [] => .error ⟨.unclosedClosure, rfl⟩
  | 0, .delimiter '}' :: rest => .ok ([], rest)
  | braces + 1, .delimiter '}' :: rest => do
    let (body, rest) ← splitBody braces rest
    pure (.delimiter '}' :: body, rest)
  | braces, .delimiter '{' :: rest => do
    let (body, rest) ← splitBody (braces + 1) rest
    pure (.delimiter '{' :: body, rest)
  | braces, token :: rest => do
    let (body, rest) ← splitBody braces rest
    pure (token :: body, rest)

/-- The separator that a token is. -/
def separator? : Lexeme → Option Separator
  | .delimiter ',' => some .comma
  | .delimiter ')' => some .close
  | _ => none

/-- The numbers of open parentheses and braces behind a token. -/
def countOpen (token : Lexeme) (parens braces : Nat) : Except FormFault (Nat × Nat) :=
  match token, parens, braces with
  | .delimiter '(', parens, braces => .ok (parens + 1, braces)
  | .delimiter '{', parens, braces => .ok (parens, braces + 1)
  | .delimiter ')', parens + 1, braces => .ok (parens, braces)
  | .delimiter ')', 0, _ => .error ⟨.unbalanced ')', rfl⟩
  | .delimiter '}', parens, braces + 1 => .ok (parens, braces)
  | .delimiter '}', _, 0 => .error ⟨.unbalanced '}', rfl⟩
  | _, parens, braces => .ok (parens, braces)

/-- An argument up to the separator behind it, which is given too. -/
def splitOpen (parens braces : Nat) :
    Tokens → Except FormFault ((Tokens × Separator) × Tokens)
  | [] => .error ⟨.endInArgument, rfl⟩
  | token :: rest =>
    match separator? token, parens, braces with
    | some separator, 0, 0 => .ok (([], separator), rest)
    | _, _, _ => do
      let (parens, braces) ← countOpen token parens braces
      let ((argument, separator), rest) ← splitOpen parens braces rest
      pure ((token :: argument, separator), rest)

/-- An argument that is not empty, and the separator behind it. -/
def splitArgument (tokens : Tokens) : Except FormFault ((Tokens × Separator) × Tokens) :=
  match splitOpen 0 0 tokens with
  | .ok (([], _), _) => .error .missingArgument
  | result => result

/-- The tokens behind groups whose closing delimiters are due. -/
def splitGroups : List Char → Tokens → Except FormFault (Unit × Tokens)
  | [], rest => .ok ((), rest)
  | closer :: _, [] => .error (.closerExpected closer)
  | closer :: outer, token :: rest =>
    match token with
    | .delimiter '(' => splitGroups (')' :: closer :: outer) rest
    | .delimiter '{' => splitGroups ('}' :: closer :: outer) rest
    | .delimiter ')' =>
      if ')' = closer then splitGroups outer rest else .error ⟨.closerMismatch closer ')', rfl⟩
    | .delimiter '}' =>
      if '}' = closer then splitGroups outer rest else .error ⟨.closerMismatch closer '}', rfl⟩
    | _ => splitGroups (closer :: outer) rest

/-! ## Reading tokens -/

/-- Evaluation steps on a token list. -/
abbrev TokenM := ReadM Tokens Tokens

variable {α : Type}

/-- Fail for the form of the program. -/
def fail (fault : FormFault) : TokenM α := (CoreM.fail fault).lift

/-- Take a token. The fault is that of the end of the list. -/
def next (atEnd : FormFault) : TokenM Lexeme
  | [] => CoreM.fail atEnd
  | token :: rest => pure (token, rest)

/-- Split a part off the token list. -/
def split (part : Tokens → Except FormFault (α × Tokens)) : TokenM α := fun tokens =>
  match part tokens with
  | .ok result => pure result
  | .error fault => CoreM.fail fault

/-- Fail for a token that does not belong here. -/
def unexpected (token : Lexeme) : TokenM α := fail (.notExpected (String.ofList token.text))

/-- Take a delimiter that has to come next. -/
def expect (delimiter : Char) : TokenM Unit
  | token :: rest =>
    if token.isDelimiter delimiter then pure ((), rest)
    else CoreM.fail (.closerExpected delimiter)
  | [] => CoreM.fail (.closerExpected delimiter)

/-- Take the separator that has to follow an argument. -/
def separator : TokenM Separator
  | token :: rest =>
    match separator? token with
    | some separator => pure (separator, rest)
    | none => CoreM.fail ⟨.separatorExpected, rfl⟩
  | [] => CoreM.fail ⟨.separatorExpected, rfl⟩

/-! ## Closures and calls -/

/-- What a formal parameter is bound to: a value, or a slot and the tokens of the argument that is
going to fill it. -/
inductive Actual (β : Type) where
  | evaluated (value : Datum β)
  | captured (slot : Nat) (argument : β)

/-- The binding of an actual parameter. -/
def Actual.bound {β : Type} : Actual β → Bound β
  | evaluated value => .value value
  | captured slot _ => .slot slot

/-- Extend a scope by a frame. -/
def extend {β : Type} (scope : Scope β) (actuals : List (List Char × Actual β)) :
    CoreM β (Scope β) := do
  CoreM.charge (2 * actuals.length)
  CoreM.charge 1
  pure ((actuals.map fun (name, actual) => (name, actual.bound)) :: scope)

theorem extend_eq {β : Type} (scope : Scope β) (actuals : List (List Char × Actual β)) :
    extend scope actuals =
      CoreM.charge (2 * actuals.length) >>= fun _ => CoreM.charge 1 >>= fun _ =>
        pure ((actuals.map fun entry => (entry.1, entry.2.bound)) :: scope) :=
  rfl

/-- Make the closure whose opening brace has been taken. -/
def closure (scope : Scope Tokens) : TokenM (Datum Tokens) := do
  let params ← split (splitFormals false)
  let body ← split (splitBody 0)
  (CoreM.charge (2 * params.length)).lift
  (CoreM.charge body.length).lift
  (CoreM.charge 3).lift
  pure (.closure params body scope)

/-- Take the tokens of an argument and the separator behind it. -/
def captureArgument : TokenM (Tokens × Separator) := do
  let (argument, separator) ← split splitArgument
  (CoreM.charge argument.length).lift
  pure (argument, separator)

section Calls

variable (eval : Scope Tokens → TokenM (Datum Tokens))

/-- Evaluate or capture an argument, and take the separator behind it. -/
def bindActual (scope : Scope Tokens) (param : Param) :
    TokenM (Actual Tokens × Separator) :=
  match param.mode with
  | .eager => do
    let value ← eval scope
    pure (.evaluated value, ← separator)
  | .deferred => do
    let (argument, separator) ← captureArgument
    let slot ← CoreM.newSlot.lift
    pure (.captured slot argument, separator)

/-- Bind formal parameters to arguments, one each. -/
def bindActuals (scope : Scope Tokens) :
    List Param → TokenM (List (List Char × Actual Tokens))
  | [] => pure []
  | param :: params => do
    let (actual, separator) ← bindActual eval scope param
    (CoreM.checkSeparator params.isEmpty separator).lift
    let actuals ← bindActuals scope params
    pure ((param.name, actual) :: actuals)

/-- Evaluate a captured argument, which has to be a single term, and fill its slot. -/
def settle (scope : Scope Tokens) (name : List Char) :
    Actual Tokens → CoreM Tokens Unit
  | .evaluated _ => pure ()
  | .captured slot argument => do
    let (value, left) ← eval scope argument
    if left.isEmpty then CoreM.fill slot value
    else CoreM.fail ⟨.trailingArgument (String.ofList name), rfl⟩

/-- Evaluate the captured arguments in their order. -/
def settleAll (scope : Scope Tokens) (actuals : List (List Char × Actual Tokens)) :
    CoreM Tokens Unit :=
  actuals.forM fun (name, actual) => settle eval scope name actual

/-- Evaluate the body of a function, which has to be a single term. -/
def runBody (scope : Scope Tokens) (body : Tokens) : CoreM Tokens (Datum Tokens) := do
  let (value, left) ← eval scope body
  if left.isEmpty then pure value else CoreM.fail ⟨.trailingBody, rfl⟩

/-- Call a function whose arguments come next. -/
def call (scope : Scope Tokens) (params : List Param) (body : Tokens)
    (defining : Scope Tokens) : TokenM (Datum Tokens) :=
  match params with
  | [] => do
    expect ')'
    (runBody eval defining body).lift
  | _ => do
    let actuals ← bindActuals eval scope params
    let inner ← (extend defining actuals).lift
    (settleAll eval inner actuals).lift
    (runBody eval inner body).lift

/-- The text of a value, with the slots as they are. -/
def render (value : Datum Tokens) : CoreM Tokens String := do
  pure (String.ofList (value.full (← get).slots))

/-- Evaluate what stands in parentheses, of which the first has been taken. -/
def application (skip : TokenM Unit) (scope : Scope Tokens) : TokenM (Datum Tokens)
  | [] => CoreM.fail .endOfText
  | .keyword op :: rest => operation op rest
  | tokens => function tokens
where
  operation (op : Keyword) : TokenM (Datum Tokens) := do
    let value ← ReadM.nested (applyKeyword (eval scope) skip op)
    expect ')'
    pure value
  function : TokenM (Datum Tokens) := do
    match ← eval scope with
    | .closure params body defining => call eval scope params body defining
    | other => throw (.notAFunction (← (render other).lift))

end Calls

/-! ## Terms -/

/-- Do something a number of times. -/
def times {σ β : Type} : Nat → ReadM σ β Unit → ReadM σ β Unit
  | 0, _ => pure ()
  | n + 1, action => do
    action
    times n action

/-- Skip a term, given how to skip the operands of a keyword. -/
def skipWith (skip : TokenM Unit) : TokenM Unit := do
  match ← next .endOfText with
  | .number _ | .string _ | .atom _ => pure ()
  | .keyword op => times op.arity skip
  | .delimiter '(' => split (splitGroups [')'])
  | .delimiter '{' => split (splitGroups ['}'])
  | token => unexpected token

/-- Evaluate a term, given how to evaluate and how to skip the terms in it. -/
def termWith (eval : Scope Tokens → TokenM (Datum Tokens)) (skip : TokenM Unit)
    (scope : Scope Tokens) : TokenM (Datum Tokens) := do
  match ← next .endOfText with
  | .number n => pure (.number n)
  | .string text => pure (.string text)
  | .atom name => (CoreM.lookupName name scope).lift
  | .keyword op => applyKeyword (eval scope) skip op
  | .delimiter '{' => closure scope
  | .delimiter '(' => application eval skip scope
  | token => unexpected token

/-- Skip a term with a number of levels left. -/
def skipWithin : Nat → TokenM Unit
  | 0 => CoreM.tooDeep.lift
  | levels + 1 => ReadM.nested (skipWith (skipWithin levels))

/-- Evaluate a term with a number of levels left. -/
def evaluateWithin : Nat → Scope Tokens → TokenM (Datum Tokens)
  | 0, _ => CoreM.tooDeep.lift
  | levels + 1, scope =>
    ReadM.nested (termWith (evaluateWithin levels) (skipWithin levels) scope)

/-- Evaluate the term in front of a token list. -/
def evaluate (scope : Scope Tokens) : TokenM (Datum Tokens) := do
  evaluateWithin (← CoreM.levelsLeft.lift) scope

/-! ## Texts -/

/-- The tokens of a text. -/
def scan (lx : Lexicon) (text : String) : CoreM Tokens Tokens := do
  let (tokens, quote?) := lx.lex text.toList
  CoreM.charge tokens.length
  match quote? with
  | none => pure tokens
  | some quote => throw ⟨.unterminatedString (text.toList.length - quote.length), rfl⟩

/-- Evaluate a text, which has to be a single term. Its tokens are written twice, since they come
out last first. -/
def evalText (lx : Lexicon) (text : String) : CoreM Tokens (Datum Tokens) := do
  let tokens ← scan lx text
  CoreM.charge tokens.length
  let (value, left) ← evaluate [] tokens
  if left.isEmpty then pure value
  else CoreM.fail ⟨.trailingText (String.ofList (Lexeme.spaced true left)), rfl⟩

/-- Evaluate a text and write its value. -/
def run (lx : Lexicon) (text : String) : CoreM Tokens String := do
  render (← evalText lx text)

end BraceLang.Plain
