import BraceLang.Closure
import BraceLang.Decimal.Display
import BraceLang.Memory

/-!
# The text of values and tokens

Values are written as program text where they have one: numbers with the fewest digits,
strings in quotes, closures with their parameters and body. Lists stand in square brackets.
A closure made in a non-empty environment is followed by that environment, and closures met
inside an environment or a token list only by a mark that they have one. As bindings can refer
to the closure that they belong to, this is what keeps the text finite.

Writing a value either gives its whole text or fails for the first part that cannot be read. A
machine has to have room for it, though: the writer calls itself for every part of a value, and
nothing keeps it from using up the stack.

* `Memory.render`: the text of a value, however deep its parts are nested.
* `Memory.renderOn`: the text of a value on a machine, if there is room for it.
* `Memory.renderTokens`: a token list with the spacing of program text.
-/

namespace BraceLang

/-- Whether the environment of a closure is written out or only marked. -/
inductive Detail where
  | full
  | brief
deriving DecidableEq, Repr

namespace Memory

/-! ## Pieces -/

/-- The text of a reference. -/
def textOf (m : Memory) (ref : TextRef) : Except EvalError (List Char) :=
  ((m.texts.resolve ref).map String.toList).mapError EvalError.ofStore

/-- Write the items of a list in order, up to the first one that cannot be read or written. -/
def eachItem {α : Type} (m : Memory) (write : Value → Except EvalError α) (l : ListRef) :
    Except EvalError (List α) :=
  (m.store.items l).mapM fun item => item.mapError EvalError.ofStore >>= write

/-- Put commas between texts. -/
def commas (parts : List (List Char)) : List Char := [',', ' '].intercalate parts

def bracketed (text : List Char) : List Char := '[' :: text ++ [']']

/-- A string stands in double quotes, and in single quotes if it contains a double one. -/
def quoted (text : List Char) : List Char :=
  let quote := if '"' ∈ text then '\'' else '"'
  quote :: text ++ [quote]

/-! ## Spacing -/

/-- No space stands behind an opening delimiter. -/
def opens (token : Value) : Bool :=
  token.isDelimiter '(' || token.isDelimiter '{' || token.isDelimiter '!'

/-- No space stands in front of a closing delimiter. -/
def closes (token : Value) : Bool :=
  token.isDelimiter ')' || token.isDelimiter '}' || token.isDelimiter ',' || token.isDelimiter ':'

/-- Put single spaces between tokens, except where a delimiter wants none. The flag says that
no space may come first. -/
def spaced : Bool → List (Value × List Char) → List Char
  | _, [] => []
  | glued, (token, text) :: rest =>
    (if glued || closes token then text else ' ' :: text) ++ spaced (opens token) rest

/-! ## Values

The functions of this section write one level of a value. They are given the function that
writes the parts. -/

variable (part : Detail → Value → Except EvalError (List Char))

/-- Write a token list. -/
def tokensWith (m : Memory) (tokens : ListRef) : Except EvalError (List Char) :=
  spaced true <$> m.eachItem (fun token => (token, ·) <$> part .brief token) tokens

/-- Write the bindings of a frame. An odd entry at the end stands for a binding without
text. -/
def bindingsWith : List Value → Except EvalError (List (List Char))
  | [] => pure []
  | [_] => pure [[]]
  | name :: value :: rest => do
    let name ← part .brief name
    let value ← part .brief value
    let rest ← bindingsWith rest
    pure ((name ++ '=' :: value) :: rest)

/-- Write a frame of an environment, which has to be a list. -/
def frameWith (m : Memory) : Value → Except EvalError (List Char)
  | .list frame => do
    let entries ← (m.store.toList frame).mapError EvalError.ofStore
    pure (bracketed (commas (← bindingsWith part entries)))
  | _ => throw (.badSyntax .malformedFrame)

/-- Write what follows a closure on its environment. -/
def environmentWith (m : Memory) (detail : Detail) (env : ListRef) :
    Except EvalError (List Char) :=
  if env.isEmpty then pure []
  else match detail with
    | .brief => pure " where ...".toList
    | .full => do
      let frames ← m.eachItem (m.frameWith part) env
      pure (" where ".toList ++ bracketed (commas frames))

/-- Write a formal parameter; a deferred one has an exclamation mark. -/
def formal (m : Memory) (f : Formal) : Except EvalError (List Char) := do
  let name ← m.textOf f.name
  pure (if f.mode = .deferred then '!' :: name else name)

/-- Write a closure. -/
def closureWith (m : Memory) (detail : Detail) (parts : ListRef) :
    Except EvalError (List Char) := do
  let c ← Closure.ofList m.store parts
  let formals ← c.formalList m.store
  let formals ← formals.mapM m.formal
  let body ← m.tokensWith part c.body
  let env ← m.environmentWith part detail c.env
  let body := if c.body.isEmpty then [] else ' ' :: body
  pure ('{' :: [' '].intercalate formals ++ ':' :: body ++ '}' :: env)

/-- Write a value whose parts are written by `part`. -/
def valueWith (m : Memory) (detail : Detail) : Value → Except EvalError (List Char)
  | .absent => pure "none".toList
  | .number n => pure (displayNumber n).toList
  | .string text => quoted <$> m.textOf text
  | .atom name => m.textOf name
  | .keyword k => pure k.name.toList
  | .delimiter c => pure [c]
  | .mode .eager => pure []
  | .mode .deferred => pure ['!']
  | .list items => (bracketed ∘ commas) <$> m.eachItem (part detail) items
  | .closure parts => m.closureWith part detail parts
  | .deferred slot => do
    let slot ← (m.store.slot slot).mapError EvalError.ofStore
    match slot.value? with
    | some value => part detail value
    | none => pure "<pending>".toList

/-! ## Whole texts -/

/-- Write a value that is nested at most to a given depth. -/
def valueWithin (m : Memory) : Nat → Detail → Value → Except EvalError (List Char)
  | 0, _, _ => throw (.badSyntax .endlessValue)
  | depth + 1, detail, value => m.valueWith (m.valueWithin depth) detail value

/-- A bound on the nesting of values: on the way into a value without end every cell and
slot comes at most once in full and once in brief. -/
def maxNesting (m : Memory) : Nat := 2 * (m.store.used + m.store.slots.size) + 2

/-- The text of a value. -/
def render (m : Memory) (value : Value) : Except EvalError String :=
  String.ofList <$> m.valueWithin m.maxNesting .full value

/-- What a machine has for writing a value. -/
structure Room where
  /-- the number of calls of the writer inside one another for which the stack is enough -/
  calls : Nat
  /-- the number of bytes that a text may take -/
  bytes : Nat

/-- The text of a value on a machine. Where the room is used up nothing is given, as the program
ends there. -/
def renderOn (m : Memory) (room : Room) (value : Value) : Except EvalError (Option String) :=
  match m.valueWithin room.calls .full value with
  | .ok text =>
    let text := String.ofList text
    .ok (if text.utf8ByteSize ≤ room.bytes then some text else none)
  | .error (.badSyntax .endlessValue) => .ok none
  | .error e => .error e

/-- The text of a token list. -/
def renderTokens (m : Memory) (tokens : ListRef) : Except EvalError String :=
  String.ofList <$> m.tokensWith (m.valueWithin m.maxNesting) tokens

end Memory

end BraceLang
