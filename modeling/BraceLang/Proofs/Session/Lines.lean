import BraceLang.Session.Command
import Mathlib.Data.List.Basic

/-!
# Logical lines

The physical lines of a text are put together to logical lines. A line that ends with a backslash,
white space aside, is continued, and the line behind it belongs to the same logical line. A logical
line has the number of its last physical line, which is counted in the text that it stands in.

* `logicalLines`: the logical lines of a text.
* `LogicalLine.Cut`: how physical lines are cut into logical ones.
* `commandsOf_eq`: the commands of a text are those of its logical lines.
-/

namespace BraceLang

/-- White space aside, the line ends with a backslash. -/
def isContinued (raw : String) : Bool := (trimEnd raw.toList).getLast? == some '\\'

/-- Physical lines that belong together, and the number of the last of them. -/
structure LogicalLine where
  lines : List String
  number : Nat

/-- Put a continued line in front of logical lines. It has the given number if there are none. -/
def LogicalLine.consFirst (raw : String) (number : Nat) : List LogicalLine → List LogicalLine
  | [] => [⟨[raw], number⟩]
  | first :: others => ⟨raw :: first.lines, first.number⟩ :: others

/-- The logical lines of physical ones that stand behind a number of others. -/
def logicalLinesFrom : Nat → List String → List LogicalLine
  | _, [] => []
  | before, raw :: rest =>
    if isContinued raw then
      LogicalLine.consFirst raw (before + 1) (logicalLinesFrom (before + 1) rest)
    else ⟨[raw], before + 1⟩ :: logicalLinesFrom (before + 1) rest

/-- The logical lines of a text. -/
def logicalLines (text : String) : List LogicalLine := logicalLinesFrom 0 (physicalLines text)

/-- What a physical line adds to its logical line: a continued one ends with a space in the place of
its backslash, and any other one without the characters of a line end. -/
def linePart (raw : String) : List Char :=
  if isContinued raw then (trimEnd raw.toList).dropLast ++ [' ']
  else dropEndWhile LineReader.isLineEnd raw.toList

namespace LogicalLine

def text (line : LogicalLine) : List Char := line.lines.flatMap linePart

/-- The command of a logical line with its number, if the line is not skipped. -/
def command? (line : LogicalLine) : Option (Command × Nat) :=
  (LineReader.command? line.text).map (·, line.number)

/-! ## Cutting lines -/

/-- Physical lines behind a number of others are cut into logical ones: continued lines and one that
is not continued, which can be missing at the end only. -/
inductive Cut : Nat → List String → List LogicalLine → Prop
  | nil {before : Nat} : Cut before [] []
  | unfinished {before : Nat} {lines : List String} : lines ≠ [] →
    (∀ raw ∈ lines, isContinued raw = true) → Cut before lines [⟨lines, before + lines.length⟩]
  | line {before : Nat} {held rest : List String} {raw : String} {logical : List LogicalLine} :
    (∀ raw ∈ held, isContinued raw = true) → isContinued raw = false →
    Cut (before + held.length + 1) rest logical →
    Cut before (held ++ raw :: rest) (⟨held ++ [raw], before + held.length + 1⟩ :: logical)

theorem Cut.consFirst {before : Nat} {raw : String} {rest : List String}
    {logical : List LogicalLine} (hraw : isContinued raw = true)
    (h : Cut (before + 1) rest logical) :
    Cut before (raw :: rest) (LogicalLine.consFirst raw (before + 1) logical) := by
  cases h with
  | nil => exact .unfinished (List.cons_ne_nil _ _) (by simpa using hraw)
  | unfinished _ hlines =>
    have hcount : before + 1 + rest.length = before + (raw :: rest).length := by
      rw [List.length_cons]
      omega
    rw [LogicalLine.consFirst, hcount]
    exact .unfinished (List.cons_ne_nil _ _) (by simpa using ⟨hraw, hlines⟩)
  | @line _ held behind last logical hheld hlast hbehind =>
    have hcount : before + 1 + held.length + 1 = before + (raw :: held).length + 1 := by
      rw [List.length_cons]
      omega
    rw [LogicalLine.consFirst, hcount]
    rw [hcount] at hbehind
    exact @Cut.line _ (raw :: held) _ _ _ (by simpa using ⟨hraw, hheld⟩) hlast hbehind

theorem cut_logicalLinesFrom (before : Nat) (physical : List String) :
    Cut before physical (logicalLinesFrom before physical) := by
  induction physical generalizing before with
  | nil => exact .nil
  | cons raw rest ih =>
    rw [logicalLinesFrom]
    split
    · rename_i hraw
      exact (ih (before + 1)).consFirst hraw
    · rename_i hraw
      exact @Cut.line _ [] _ _ _ (by simp) (by simpa using hraw) (ih (before + 1))

end LogicalLine

/-! ## Reading lines -/

namespace LineReader

/-- Line ends are white space. -/
theorem trimEnd_dropEndWhile (line : List Char) :
    trimEnd (dropEndWhile isLineEnd line) = trimEnd line := by
  have hblank : ∀ c, isLineEnd c = true → isBlank c = true := by
    intro c hc
    simp only [isLineEnd, Bool.or_eq_true, beq_iff_eq] at hc
    rcases hc with rfl | rfl <;> decide
  have hdrop : ∀ text : List Char,
      (text.dropWhile isLineEnd).dropWhile isBlank = text.dropWhile isBlank := by
    intro text
    induction text with
    | nil => rfl
    | cons c text ih =>
      cases hc : isLineEnd c with
      | false => rw [List.dropWhile_cons_of_neg (by simp [hc])]
      | true =>
        rw [List.dropWhile_cons_of_pos hc, List.dropWhile_cons_of_pos (hblank c hc), ih]
  simp only [trimEnd, dropEndWhile, List.reverse_reverse, hdrop]

theorem continued?_apply (raw : String) :
    continued? (dropEndWhile isLineEnd raw.toList) =
      if isContinued raw then some (trimEnd raw.toList).dropLast else none := by
  unfold continued? isContinued
  rw [trimEnd_dropEndWhile]
  split
  · rename_i hlast
    simp [hlast]
  · rename_i hlast
    rw [if_neg]
    simpa using hlast

/-- A line that is not continued completes what has been waiting for it. -/
theorem feed_apply (reader : LineReader) (raw : String) :
    reader.feed raw =
      if isContinued raw then
        (none, { pending := reader.pending ++ linePart raw, line := reader.line + 1 })
      else (command? (reader.pending ++ linePart raw), { line := reader.line + 1 }) := by
  simp only [feed, continued?_apply, linePart]
  cases isContinued raw <;> simp

/-- Continued lines wait for their continuation. -/
theorem feedAll_continued (reader : LineReader) {held : List String}
    (h : ∀ raw ∈ held, isContinued raw = true) (rest : List String) :
    reader.feedAll (held ++ rest) =
      feedAll ⟨reader.pending ++ held.flatMap linePart, reader.line + held.length⟩ rest := by
  induction held generalizing reader with
  | nil => simp
  | cons raw held ih =>
    rw [List.cons_append, feedAll, feed_apply, if_pos (h raw List.mem_cons_self)]
    simp only [Option.map_none, Option.toList_none, List.nil_append]
    rw [ih _ fun other hother => h other (List.mem_cons_of_mem _ hother)]
    simp only [List.flatMap_cons, List.append_assoc, List.length_cons]
    rw [Nat.add_right_comm, Nat.add_assoc reader.line]

/-- The commands of lines that are read, and of what waits behind them. -/
def commandsFrom (reader : LineReader) (lines : List String) : List (Command × Nat) :=
  let (commands, last) := reader.feedAll lines
  commands ++ (last.finish.1.map (·, last.line)).toList

theorem commandsFrom_eq_append {reader reader' last : LineReader} {lines lines' : List String}
    {commands commands' : List (Command × Nat)}
    (h : reader.feedAll lines = (commands ++ commands', last))
    (h' : reader'.feedAll lines' = (commands', last)) :
    reader.commandsFrom lines = commands ++ reader'.commandsFrom lines' := by
  simp only [commandsFrom, h, h', List.append_assoc]

theorem commandsFrom_cut {before : Nat} {physical : List String} {logical : List LogicalLine}
    (h : LogicalLine.Cut before physical logical) :
    commandsFrom { line := before } physical = logical.filterMap LogicalLine.command? := by
  induction h with
  | nil => rfl
  | @unfinished before lines _ hlines =>
    have hread := feedAll_continued { line := before } hlines []
    rw [List.append_nil] at hread
    simp only [commandsFrom, hread, feedAll, finish, List.nil_append, List.filterMap_cons,
      LogicalLine.command?, LogicalLine.text]
    cases command? (lines.flatMap linePart) <;> rfl
  | @line before held rest raw logical hheld hraw _ ih =>
    have hline : feed ⟨held.flatMap linePart, before + held.length⟩ raw =
        (command? ((held ++ [raw]).flatMap linePart), { line := before + held.length + 1 }) := by
      rw [feed_apply, if_neg (by simp [hraw])]
      simp
    have hread := feedAll_continued { line := before } hheld (raw :: rest)
    simp only [List.nil_append, feedAll, hline] at hread
    rw [commandsFrom_eq_append hread rfl, ih, List.filterMap_cons, LogicalLine.command?,
      LogicalLine.text]
    cases command? ((held ++ [raw]).flatMap linePart) <;> rfl

end LineReader

/-- The commands of a text are those of its logical lines, with their numbers. -/
theorem commandsOf_eq (text : String) :
    commandsOf text = (logicalLines text).filterMap LogicalLine.command? :=
  LineReader.commandsFrom_cut (LogicalLine.cut_logicalLinesFrom 0 _)

end BraceLang
