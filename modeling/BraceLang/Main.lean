import BraceLang.CommandLine

/-!
# The program

The outer layer of the command line: it reads files and the standard input, calls the library
and writes what the library has put into the sink. Which files a text asks for can be seen
before it is executed, so they are read ahead, and execution works on the texts that were read.

* `main`: run the program.
-/

namespace BraceLang.Program

/-- Texts that were read, by their paths. -/
abbrev Snapshot := List (String × Except ReadError String)

/-- Answer from the texts that were read. -/
def Snapshot.files (snapshot : Snapshot) : Files := fun path =>
  (snapshot.lookup path).getD (.error .notFound)

/-- The reason for a failure of the system. -/
def readErrorOf (e : IO.Error) : ReadError :=
  match e with
  | .noFileOrDirectory .. => .notFound
  | .inappropriateType _ code _ => if code = 20 then .notADirectory else .isDirectory
  | e => .other e.toString

/-- Read a file. -/
def readText (path : String) : IO (Except ReadError String) := do
  if path.toList.contains '\x00' then return .error .zeroInPath
  try
    let bytes ← IO.FS.readBinFile path
    match String.fromUTF8? bytes with
    | some text => return .ok text
    | none => return .error .notText
  catch e => return .error (readErrorOf e)

/-- Read files and all files that they ask for. -/
partial def readAhead (snapshot : Snapshot) : List String → IO Snapshot
  | [] => return snapshot
  | path :: paths => do
    if (snapshot.lookup path).isSome then readAhead snapshot paths
    else
      let found ← readText path
      let more := match found with
        | .ok text => batchPaths text
        | .error _ => []
      readAhead ((path, found) :: snapshot) (more ++ paths)

/-- Write what is in the sink and empty it. -/
def flush (session : Session) : IO Session := do
  let out ← IO.getStdout
  out.write session.out.bytes
  out.flush
  return { session with out := {} }

/-- Write the output and the failure of a session, and give the exit code. -/
def finish (ending : CommandLine.Ending) : IO UInt32 := do
  let out ← IO.getStdout
  out.write ending.out.bytes
  out.flush
  let errors ← IO.getStderr
  errors.putStr ending.errors
  return ending.code.toUInt32

/-- Execute commands from the standard input, and write after each of them. -/
partial def converse (session : Session) (reader : LineReader) : IO UInt32 := do
  let raw ← (← IO.getStdin).getLine
  if raw.isEmpty then bye session
  else
    match reader.feed raw with
    | (none, reader) => converse session reader
    | (some command, reader) =>
      let paths := match command with
        | .batch path => [path]
        | _ => []
      let snapshot ← readAhead [] paths
      match Session.execute snapshot.files command reader.line session with
      | .ok .continue session => converse (← flush session) reader
      | .ok .stop session => bye session
      | .error e session => finish (CommandLine.endingOf (.error e session))
where
  bye (session : Session) : IO UInt32 :=
    finish (CommandLine.endingOf (Session.writeLine CommandLine.farewell session))

/-- Run the program. -/
def run (args : List String) : IO UInt32 := do
  match Options.parse args with
  | none => return CommandLine.rejected.code.toUInt32
  | some options =>
    match options.file? with
    | some path =>
      let snapshot ← readAhead [] [path]
      finish (CommandLine.run snapshot.files args "")
    | none =>
      let session : Session := { interpreter := .new options.config }
      match CommandLine.banner.forM Session.writeLine session with
      | .ok _ session => converse (← flush session) {}
      | .error e session => finish (CommandLine.endingOf (.error e session))

end BraceLang.Program

def main (args : List String) : IO UInt32 := BraceLang.Program.run args
