import BraceLang.Evaluation.Monad

/-!
# Runs of tokens

Some parts of a program are not evaluated where they stand: the head and the body of a
closure, the tokens of a deferred argument, a group that is skipped. Each of them is a run of
tokens whose end is found by counting delimiters. `consume` takes tokens one by one until a
step function, which holds the counting, says that the run is complete.

* `formalStep`: formal parameters up to the colon.
* `bodyStep`: a body up to its closing brace; other delimiters do not count.
* `argumentStep`: an argument up to a comma or parenthesis outside all others; parentheses and
  braces are counted apart.
* `groupStep`: a group up to its closing delimiter; the delimiters in it have to match.
-/

namespace BraceLang

/-- What a token did to a run. -/
inductive Progress (σ α : Type) where
  /-- the run goes on -/
  | more (state : σ)
  /-- the run is complete -/
  | done (result : α)

namespace EvalM

variable {σ α : Type}

/-- Take tokens from the cursor until a run is complete, up to a number of tokens. -/
def consumeWithin (atEnd : σ → SyntaxFault)
    (step : σ → Value → Except SyntaxFault (Progress σ α)) : Nat → σ → EvalM α
  | 0, state => fail (atEnd state)
  | tokens + 1, state => do
    let token ← next (atEnd state)
    match step state token with
    | .ok (.more state) => consumeWithin atEnd step tokens state
    | .ok (.done result) => pure result
    | .error fault => fail fault

/-- Take tokens from the cursor until a run is complete. -/
def consume (atEnd : σ → SyntaxFault)
    (step : σ → Value → Except SyntaxFault (Progress σ α)) (state : σ) : EvalM α := do
  let steps := (← get).store.maxSteps
  consumeWithin atEnd step steps state

end EvalM

/-! ## Formal parameters -/

/-- The entries read so far, and whether an exclamation mark came last. -/
structure FormalRun where
  marked : Bool := false
  entries : Array Value := #[]

/-- A name, a mark in front of a name, or the colon that ends the run. -/
def formalStep (run : FormalRun) (token : Value) :
    Except SyntaxFault (Progress FormalRun (List Value)) :=
  match run.marked, token with
  | false, .delimiter ':' => .ok (.done run.entries.toList)
  | false, .delimiter '!' => .ok (.more { run with marked := true })
  | marked, .atom name =>
    let mode := if marked then BindingMode.deferred else BindingMode.eager
    .ok (.more { entries := (run.entries.push (.mode mode)).push (.atom name) })
  | _, _ => .error .formalExpected

/-! ## Bodies -/

/-- The tokens read so far, and the number of open braces. -/
structure BodyRun where
  braces : Nat := 0
  tokens : Array Value := #[]

/-- Any token but the brace that closes the body belongs to it. -/
def bodyStep (run : BodyRun) (token : Value) :
    Except SyntaxFault (Progress BodyRun (List Value)) :=
  let tokens := run.tokens.push token
  match token, run.braces with
  | .delimiter '}', 0 => .ok (.done run.tokens.toList)
  | .delimiter '}', braces + 1 => .ok (.more { braces, tokens })
  | .delimiter '{', braces => .ok (.more { braces := braces + 1, tokens })
  | _, braces => .ok (.more { braces, tokens })

/-! ## Deferred arguments -/

/-- What follows an argument. -/
inductive Separator where
  /-- a comma: another argument comes -/
  | comma
  /-- a parenthesis: the call ends -/
  | close
deriving DecidableEq, Repr

/-- The separator that a token is. -/
def Separator.ofToken? : Value → Option Separator
  | .delimiter ',' => some .comma
  | .delimiter ')' => some .close
  | _ => none

/-- The tokens read so far, and the numbers of open parentheses and braces. -/
structure ArgumentRun where
  parens : Nat := 0
  braces : Nat := 0
  tokens : Array Value := #[]

/-- Any token but a separator outside all delimiters belongs to the argument, which may not be
empty and may not close what it did not open. -/
def argumentStep (run : ArgumentRun) (token : Value) :
    Except SyntaxFault (Progress ArgumentRun (List Value × Separator)) :=
  let run' := { run with tokens := run.tokens.push token }
  match Separator.ofToken? token, run.parens, run.braces with
  | some separator, 0, 0 =>
    if run.tokens.isEmpty then .error .missingArgument
    else .ok (.done (run.tokens.toList, separator))
  | _, parens, braces =>
    match token, parens, braces with
    | .delimiter '(', parens, _ => .ok (.more { run' with parens := parens + 1 })
    | .delimiter '{', _, braces => .ok (.more { run' with braces := braces + 1 })
    | .delimiter ')', parens + 1, _ => .ok (.more { run' with parens })
    | .delimiter ')', 0, _ => .error (.unbalanced ')')
    | .delimiter '}', _, braces + 1 => .ok (.more { run' with braces })
    | .delimiter '}', _, 0 => .error (.unbalanced '}')
    | _, _, _ => .ok (.more run')

/-! ## Groups -/

/-- The closing delimiters that are due: the innermost one and those around it. -/
structure GroupRun where
  closer : Char
  outer : List Char := []

/-- Open another group inside. -/
def GroupRun.enter (run : GroupRun) (closer : Char) : GroupRun :=
  { closer, outer := run.closer :: run.outer }

/-- Close the innermost group. -/
def GroupRun.leave (run : GroupRun) (found : Char) :
    Except SyntaxFault (Progress GroupRun Unit) :=
  if found = run.closer then
    match run.outer with
    | [] => .ok (.done ())
    | closer :: outer => .ok (.more { closer, outer })
  else .error (.closerMismatch run.closer found)

/-- Delimiters open and close groups inside one another; other tokens do not count. -/
def groupStep (run : GroupRun) : Value → Except SyntaxFault (Progress GroupRun Unit)
  | .delimiter '(' => .ok (.more (run.enter ')'))
  | .delimiter '{' => .ok (.more (run.enter '}'))
  | .delimiter ')' => run.leave ')'
  | .delimiter '}' => run.leave '}'
  | _ => .ok (.more run)

end BraceLang
