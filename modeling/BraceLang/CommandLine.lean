import BraceLang.Session.Basic

/-!
# The command line

The program takes a few options and at most one file. With a file it executes the commands of
the file; without one it reads commands from its input, line by line, between a banner and a
farewell. An open continuation at the end of the input is dropped. A failure is written to the
error output and makes the exit code one; arguments that are not understood make it two.

* `Options.parse`: the meaning of the arguments.
* `CommandLine.run`: output, error output and exit code of the whole program.
-/

namespace BraceLang

/-- What the arguments ask for. -/
structure Options where
  file? : Option String := none
  maxDepth? : Option Nat := none
  chunkSize? : Option Nat := none
  maxCells? : Option Nat := none
  resetTexts : Bool := false
  commentToEnd : Bool := false
deriving DecidableEq, Repr

namespace Options

/-- The greatest count that can be given. -/
def maxCount : Nat := Nat.pow 2 64 - 1

/-- Read a count: digits, with a plus sign in front if wanted. -/
def readCount? (text : List Char) : Option Nat :=
  let digits := match text with
    | '+' :: rest => rest
    | _ => text
  if digits ≠ [] ∧ digits.all Decimal.isDigit ∧ Decimal.valueOf digits ≤ maxCount then
    some (Decimal.valueOf digits)
  else none

/-- Set a value that may be given once. -/
def once {α : Type} (old? : Option α) (new : α) : Option (Option α) :=
  match old? with
  | none => some (some new)
  | some _ => none

/-- Take an option that has a value. -/
def withValue (o : Options) (name : String) (value : List Char) : Option Options := do
  match name with
  | "--max-depth" => pure { o with maxDepth? := ← once o.maxDepth? (← readCount? value) }
  | "--chunk-size" => pure { o with chunkSize? := ← once o.chunkSize? (← readCount? value) }
  | "--max-cells" => pure { o with maxCells? := ← once o.maxCells? (← readCount? value) }
  | _ => none

/-- Take an option that has no value. -/
def withFlag (o : Options) : String → Option Options
  | "--reset-interner" => if o.resetTexts then none else some { o with resetTexts := true }
  | "--comment-to-end" => if o.commentToEnd then none else some { o with commentToEnd := true }
  | _ => none

/-- Take a file, which has a name. -/
def withFile (o : Options) (path : String) : Option Options := do
  if path = "" then none else pure { o with file? := ← once o.file? path }

/-- Whether an option is followed by its value. -/
def wantsValue (name : String) : Bool :=
  ["--max-depth", "--chunk-size", "--max-cells"].contains name

/-- An option and its value when both are in one argument. -/
def splitValue? (arg : String) : Option (String × List Char) :=
  match arg.toList.dropWhile (· != '=') with
  | [] => none
  | _ :: value => some (String.ofList (arg.toList.takeWhile (· != '=')), value)

/-- Take files only. -/
def parseFiles (o : Options) (args : List String) : Option Options :=
  args.foldlM withFile o

/-- Take arguments one by one. An argument that starts with a minus sign is an option, except
for the sign alone; two signs alone end the options. -/
def parseFrom (o : Options) : List String → Option Options
  | [] => some o
  | arg :: rest =>
    if arg = "--" then o.parseFiles rest
    else if arg = "-" ∨ arg.toList.head? ≠ some '-' then do (← o.withFile arg).parseFrom rest
    else match splitValue? arg with
      | some (name, value) => do (← o.withValue name value).parseFrom rest
      | none =>
        if wantsValue arg then
          match rest with
          | [] => none
          | value :: rest => do
            if value.toList.head? = some '-' then none
            else (← o.withValue arg value.toList).parseFrom rest
        else do (← o.withFlag arg).parseFrom rest

/-- The meaning of the arguments, if they have one. -/
def parse (args : List String) : Option Options := ({} : Options).parseFrom args

/-- The configuration that the options ask for, on a machine that has memory for some numbers of
cells at a time. -/
def config (o : Options) (reserves : Nat → Bool := fitsBlock) : Config :=
  let base : Config := {}
  let sized := base.withChunkSize (o.chunkSize?.getD base.chunkSize)
  { sized with
    reserves
    maxDepth := o.maxDepth?.getD base.maxDepth
    maxCells := o.maxCells?
    comment := if o.commentToEnd then .toEndOfInput else .toEndOfLine
    resetTexts := o.resetTexts }

end Options

namespace CommandLine

/-- The lines that greet a user. -/
def banner : List String :=
  ["AWFUL - A Weird FUnctional Language",
    "",
    "Type: 'bye' to leave, 'batch FILENAME' to process a file",
    "Lines starting with backslash or empty are skipped",
    "A line ending with backslash is joined to the following one"]

def farewell : String := "Goodbye"

/-- Execute commands from the lines of the input. -/
def converse (files : Files) (lines : List String) : SessionM Unit := do
  banner.forM Session.writeLine
  Session.runCommands (Session.execute files) (LineReader.feedAll {} lines).1
  Session.writeLine farewell

/-- What the program leaves behind. -/
structure Ending where
  code : Nat
  out : Sink := {}
  errors : String := ""

/-- The exit code for arguments that are not understood. -/
def rejected : Ending := { code := 2 }

/-- How the program ends after a session. -/
def endingOf : EStateM.Result SessionError Session Unit → Ending
  | .ok _ session => { code := 0, out := session.out }
  | .error e session => { code := 1, out := session.out, errors := s!"Error: {e.message}\n" }

/-- Run the program. -/
def run (files : Files) (args : List String) (input : String)
    (reserves : Nat → Bool := fitsBlock) : Ending :=
  match Options.parse args with
  | none => rejected
  | some options =>
    let session : Session := { interpreter := .new (options.config reserves) }
    match options.file? with
    | some path => endingOf (Session.runFile files path session)
    | none => endingOf (converse files (physicalLines input) session)

end CommandLine

end BraceLang
