/-!
# Settings of an interpreter

A `Config` fixes the limits of an evaluation, the layout of the cell store and the
lexical rules of program text, and says what the machine has memory for. Every field has a
default, so that a setting is changed by a record update.

* `fitsBlock`: no machine has memory for more cells at a time.
* `Config.withChunkSize`: the chunk size is kept positive.
-/

namespace BraceLang

/-- How far a comment reaches. -/
inductive CommentStyle where
  /-- up to the next line feed, which is not part of the comment -/
  | toEndOfLine
  /-- up to the end of the text -/
  | toEndOfInput
deriving DecidableEq, Repr

/-- The number of bytes that a list cell takes. -/
def cellBytes : Nat := 32

/-- The number of bytes that one block of memory may have. -/
def maxBlockBytes : Nat := Nat.pow 2 63 - 1

/-- Whether one block of memory can hold that many cells. -/
def fitsBlock (cells : Nat) : Bool := cells * cellBytes ≤ maxBlockBytes

/-- The settings of an interpreter. -/
structure Config where
  /-- how many terms may be under evaluation inside one another -/
  maxDepth : Nat := 1024
  /-- how many cells the store reserves at a time -/
  chunkSize : Nat := 1024
  /-- whether the machine has memory for that many cells at a time -/
  reserves : Nat → Bool := fitsBlock
  /-- how many cells an evaluation may use, if that is limited -/
  maxCells : Option Nat := none
  /-- the characters that are tokens by themselves -/
  delimiters : String := "()\x7b\x7d,:!"
  comment : CommentStyle := .toEndOfLine
  /-- whether every evaluation starts with an empty text table -/
  resetTexts : Bool := false

/-- A chunk holds at least one cell, so a chunk size of zero is taken as one. -/
def Config.withChunkSize (config : Config) (size : Nat) : Config :=
  { config with chunkSize := max size 1 }

end BraceLang
