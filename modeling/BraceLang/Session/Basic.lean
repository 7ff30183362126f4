import BraceLang.Interpreter
import BraceLang.Session.Command
import BraceLang.Session.Files
import BraceLang.Session.Sink

/-!
# Sessions

A session executes commands with one interpreter and writes a line for each result. An error
is written with the number of the line that caused it, and the session goes on; only a lack of
cells or a sink that is full ends everything at once. A batch file is read as a whole, and its
commands are executed one after the other up to the first `bye`, which ends the file and not
the session. Batch files can execute batch files, up to a fixed nesting.

* `Session.execute`: the effect of a command. A file that cannot be read, or is nested too
  deep, is reported like any other error.
* `Session.runBatch`, `Session.runFile`: the effect of a text or a file of commands.
-/

namespace BraceLang

/-- Why a session fails. -/
inductive SessionError where
  | unreadable (path : String) (cause : ReadError)
  /-- the output could not be written -/
  | sinkFull
  /-- an evaluation ran out of cells -/
  | fatal (error : EvalError) (line : Nat)
  | tooManyBatches (limit : Nat)

namespace SessionError

def message : SessionError → String
  | unreadable path cause => s!"cannot read {path}: {cause.message}"
  | sinkFull => "sink full"
  | fatal error line => s!"{error.message} line {line}"
  | tooManyBatches limit => s!"batch files nested more than {limit} deep"

/-- Whether the failure concerns only the batch file that was asked for, so that it is reported
and the session goes on. -/
def isReported : SessionError → Bool
  | unreadable .. | tooManyBatches _ => true
  | _ => false

end SessionError

structure Session where
  interpreter : Interpreter
  out : Sink := {}
  /-- how many batch files are being executed inside one another -/
  nesting : Nat := 0

/-- Operations on a session keep what they did when they fail later. -/
abbrev SessionM := EStateM SessionError Session

/-- Whether a session goes on after a command. -/
inductive Flow where
  | continue
  | stop
deriving DecidableEq, Repr

namespace Session

/-- How many batch files can be executed inside one another. -/
def maxNesting : Nat := 16

/-- Write a line. -/
def writeLine (text : String) : SessionM Unit
  | ⟨interpreter, out, nesting⟩ =>
    match out.write (text ++ "\n") with
    | (true, out) => .ok () ⟨interpreter, out, nesting⟩
    | (false, out) => .error .sinkFull ⟨interpreter, out, nesting⟩

/-- Run the interpreter on a text. -/
def interpret (text : String) : SessionM (Except EvalError String)
  | ⟨interpreter, out, nesting⟩ =>
    match Interpreter.run text interpreter with
    | .ok result interpreter => .ok (.ok result) ⟨interpreter, out, nesting⟩
    | .error e interpreter => .ok (.error e) ⟨interpreter, out, nesting⟩

/-- Evaluate a term and write its value or its error. -/
def evalLine (text : String) (line : Nat) : SessionM Unit := do
  match ← interpret text with
  | .ok result => writeLine result
  | .error e =>
    if e.isFatal then throw (.fatal e line)
    else writeLine s!"Error: {e.message} line {line}"

/-- Execute a command, given how to execute a file. -/
def executeWith (runFile : String → SessionM Unit) : Command → Nat → SessionM Flow
  | .bye, _ => pure .stop
  | .eval text, line => do
    evalLine text line
    pure .continue
  | .batch path, _ => do
    try runFile path
    catch e => if e.isReported then writeLine s!"Error: {e.message}" else throw e
    pure .continue

/-- Execute commands up to the first that stops. -/
def runCommands (execute : Command → Nat → SessionM Flow) :
    List (Command × Nat) → SessionM Unit
  | [] => pure ()
  | (command, line) :: rest => do
    match ← execute command line with
    | .stop => pure ()
    | .continue => runCommands execute rest

/-- Count one more batch file while an action runs. -/
def nested (action : SessionM Unit) : SessionM Unit
  | ⟨interpreter, out, nesting⟩ =>
    match action ⟨interpreter, out, nesting + 1⟩ with
    | .ok a ⟨interpreter, out, nesting⟩ => .ok a ⟨interpreter, out, nesting - 1⟩
    | .error e ⟨interpreter, out, nesting⟩ => .error e ⟨interpreter, out, nesting - 1⟩

/-- Execute a file with a number of levels left. -/
def runFileWithin (files : Files) : Nat → String → SessionM Unit
  | 0, _ => throw (.tooManyBatches maxNesting)
  | levels + 1, path =>
    match files path with
    | .ok text =>
      nested (runCommands (executeWith (runFileWithin files levels)) (commandsOf text))
    | .error cause => throw (.unreadable path cause)

/-- Execute the commands of a file. -/
def runFile (files : Files) (path : String) : SessionM Unit := do
  runFileWithin files (maxNesting - (← get).nesting) path

/-- Execute a command that stands in a given line. -/
def execute (files : Files) : Command → Nat → SessionM Flow :=
  executeWith (runFile files)

/-- Execute the commands of a text. -/
def runBatch (files : Files) (text : String) : SessionM Unit :=
  runCommands (execute files) (commandsOf text)

end Session

end BraceLang
