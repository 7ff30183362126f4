import BraceLang.Evaluation.Term
import BraceLang.Token.Stream

/-!
# The interpreter

An interpreter keeps its memory between evaluations. Every text is evaluated in a reset store
and, if so configured, with an empty text table; the values of earlier evaluations are out of
reach from then on, but the chunks of the store are used again.

* `Interpreter.evalText`: a text is one term.
* `Interpreter.run`: the text of the value of a text.
* `Interpreter.runOn`: the same on a machine, which has to have room for the text of the value.
-/

namespace BraceLang

structure Interpreter where
  config : Config
  memory : Memory
  depth : Nat := 0

/-- Operations on an interpreter keep what they did when they fail later. -/
abbrev InterpreterM := EStateM EvalError Interpreter

namespace Interpreter

/-- A new interpreter with its own memory. -/
def new (config : Config) : Interpreter :=
  { config, memory := { store := Store.new config.chunkSize config.maxCells config.reserves } }

/-- Forget the cells of earlier evaluations, and their texts if the configuration says so. -/
def reset (i : Interpreter) : Interpreter :=
  let texts := if i.config.resetTexts then i.memory.texts.clear else i.memory.texts
  { i with memory := { store := i.memory.store.reset, texts }, depth := 0 }

/-- Work on the memory. -/
def ofMemoryM {α : Type} (action : MemoryM α) : InterpreterM α
  | ⟨config, memory, depth⟩ =>
    match action memory with
    | .ok a memory => .ok a ⟨config, memory, depth⟩
    | .error e memory => .error e ⟨config, memory, depth⟩

/-- Scan a text by the rules of the configuration. -/
def scan (text : String) : InterpreterM TokenStream := do
  let lx := (← get).config.lexicon
  ofMemoryM (BraceLang.scan lx text)

/-! ## Evaluation -/

/-- How an evaluation ended. -/
structure Outcome (α : Type) where
  result : Except EvalError α
  /-- the tokens that were not taken -/
  rest : ListRef
  interpreter : Interpreter

/-- Run evaluation steps on tokens of the interpreter's store. -/
def perform {α : Type} (tokens : ListRef) (action : EvalM α) : Interpreter → Outcome α
  | ⟨config, ⟨store, texts⟩, depth⟩ =>
    match action ⟨texts, config.maxDepth⟩ ⟨store, tokens, depth⟩ with
    | .ok a ⟨store, rest, depth⟩ => ⟨.ok a, rest, ⟨config, ⟨store, texts⟩, depth⟩⟩
    | .error e ⟨store, rest, depth⟩ =>
      ⟨.error e, rest, ⟨config, ⟨store, texts⟩, depth⟩⟩

/-- Run evaluation steps that have to succeed, and give the tokens that were not taken. -/
def steps {α : Type} (tokens : ListRef) (action : EvalM α) :
    InterpreterM (α × ListRef) := fun i =>
  match i.perform tokens action with
  | ⟨.ok a, rest, i⟩ => .ok (a, rest) i
  | ⟨.error e, _, i⟩ => .error e i

/-- Answer from the memory. -/
def ask {α : Type} (question : Memory → Except EvalError α) : InterpreterM α := do
  MonadExcept.ofExcept (question (← get).memory)

/-- Evaluate a text, which has to be a single term. -/
def evalText (text : String) : InterpreterM Value := do
  modify reset
  let stream ← scan text
  let tokens ← ofMemoryM (Memory.ofStoreM stream.forward)
  let (value, rest) ← steps tokens (evaluate {})
  if rest.isEmpty then pure value
  else
    let rest ← ask (·.renderTokens rest)
    throw (.badSyntax (.trailingText rest))

/-- Evaluate a text and write its value. -/
def run (text : String) : InterpreterM String := do
  let value ← evalText text
  ask (·.render value)

/-- Evaluate a text and write its value on a machine. Where the room for writing is used up
nothing is given, as the program ends there. -/
def runOn (room : Memory.Room) (text : String) : InterpreterM (Option String) := do
  let value ← evalText text
  ask (·.renderOn room value)

end Interpreter

end BraceLang
