import BraceLang.Text.Blank
import BraceLang.Text.Lines

/-!
# Commands of a session

A session reads physical lines and executes commands. A line that ends with a backslash,
white space aside, is continued by the next one: the backslash is replaced by a space and the
lines are joined. A complete line is trimmed; if it is empty or starts with a backslash it is
skipped, and otherwise it is a command: `bye`, `batch` with a path, or a term to evaluate.

* `LineReader.feed`: what one more line does.
* `commandsOf`: the commands of a whole text, each with the number of its last line. A text
  that ends within a continued line is complete there.
-/

namespace BraceLang

inductive Command where
  /-- evaluate a term -/
  | eval (text : String)
  /-- end the session, or the batch file -/
  | bye
  /-- execute the commands of a file -/
  | batch (path : String)
deriving DecidableEq, Repr

/-- The command that a trimmed line holds. -/
def Command.ofLine (line : List Char) : Command :=
  if line = "bye".toList then .bye
  else match "batch ".toList.isPrefixOf? line with
    | some path => .batch (String.ofList (trim path))
    | none => .eval (String.ofList line)

/-- The lines that wait for their continuation, joined, and the number of lines read. -/
structure LineReader where
  pending : List Char := []
  line : Nat := 0
deriving DecidableEq, Repr

namespace LineReader

def isContinuing (reader : LineReader) : Bool := !reader.pending.isEmpty

/-- The command of a complete line, if it is not skipped. -/
def command? (text : List Char) : Option Command :=
  match trim text with
  | [] => none
  | c :: line => if c = '\\' then none else some (.ofLine (c :: line))

/-- A line that is continued, without its backslash and the white space behind it. -/
def continued? (line : List Char) : Option (List Char) :=
  match (trimEnd line).getLast? with
  | some '\\' => some (trimEnd line).dropLast
  | _ => none

/-- The characters that can end a physical line. -/
def isLineEnd (c : Char) : Bool := c == '\n' || c == '\r'

/-- Read a line. -/
def feed (reader : LineReader) (raw : String) : Option Command × LineReader :=
  let line := dropEndWhile isLineEnd raw.toList
  match continued? line with
  | some head => (none, { pending := reader.pending ++ head ++ [' '], line := reader.line + 1 })
  | none => (command? (reader.pending ++ line), { line := reader.line + 1 })

/-- Take what waits for its continuation as complete. -/
def finish (reader : LineReader) : Option Command × LineReader :=
  (command? reader.pending, { reader with pending := [] })

/-- Read some lines. The answer has the commands in their order, each with the number of its
last line, and the reader behind the lines. -/
def feedAll : LineReader → List String → List (Command × Nat) × LineReader
  | reader, [] => ([], reader)
  | reader, raw :: rest =>
    let (command?, reader) := reader.feed raw
    let (commands, last) := reader.feedAll rest
    ((command?.map (·, reader.line)).toList ++ commands, last)

end LineReader

/-- The commands of a text. -/
def commandsOf (text : String) : List (Command × Nat) :=
  let (commands, reader) := LineReader.feedAll {} (physicalLines text)
  commands ++ (reader.finish.1.map (·, reader.line)).toList

/-- The paths that a text asks to execute, in their order. -/
def batchPaths (text : String) : List String :=
  (commandsOf text).filterMap fun
    | (.batch path, _) => some path
    | _ => none

end BraceLang
