import BraceLang.Proofs.Session.Lines
import Mathlib.Data.List.TakeWhile

/-!
# Comment lines

A line that starts with a backslash, white space aside, is skipped together with the logical line
that it belongs to. Where no line is waiting for its continuation, such a line does not change the
commands, unless it ends with another backslash: then it is continued by the logical line behind it,
and the command of that line is lost.

* `IsComment`, `swallowsNext`: lines that start with a backslash, and those that end with another
  one.
* `commandsIn_insert_comment`: the commands when a line that starts with a backslash is inserted.
-/

namespace BraceLang

/-! ## Logical lines as texts -/

/-- The texts of the logical lines. -/
def logicalTexts : List String → List (List Char)
  | [] => []
  | raw :: lines =>
    if isContinued raw then
      (linePart raw ++ (logicalTexts lines).headD []) :: (logicalTexts lines).tail
    else linePart raw :: logicalTexts lines

theorem logicalTexts_eq (before : Nat) (lines : List String) :
    (logicalLinesFrom before lines).map LogicalLine.text = logicalTexts lines := by
  induction lines generalizing before with
  | nil => rfl
  | cons raw lines ih =>
    rw [logicalLinesFrom, logicalTexts]
    split
    · rw [← ih (before + 1)]
      cases logicalLinesFrom (before + 1) lines with
      | nil => simp [LogicalLine.consFirst, LogicalLine.text]
      | cons first others => simp [LogicalLine.consFirst, LogicalLine.text]
    · rw [List.map_cons, ih]
      simp [LogicalLine.text]

/-- The commands of lines. -/
def commandsIn (lines : List String) : List Command :=
  (LineReader.commandsFrom {} lines).map Prod.fst

namespace LineReader

theorem command?_nil : command? [] = none := rfl

theorem commandsFrom_eq_logicalTexts (line : Nat) (lines : List String) :
    (commandsFrom { line } lines).map Prod.fst = (logicalTexts lines).filterMap command? := by
  rw [commandsFrom_cut (LogicalLine.cut_logicalLinesFrom line lines),
    ← logicalTexts_eq line lines, List.map_filterMap, List.filterMap_map]
  refine List.filterMap_congr fun logical _ => ?_
  simp only [LogicalLine.command?, Function.comp_apply, Option.map_map]
  cases command? logical.text <;> rfl

theorem feedAll_append (reader : LineReader) (lines lines' : List String) :
    reader.feedAll (lines ++ lines') =
      ((reader.feedAll lines).1 ++ ((reader.feedAll lines).2.feedAll lines').1,
        ((reader.feedAll lines).2.feedAll lines').2) := by
  induction lines generalizing reader with
  | nil => rfl
  | cons raw lines ih =>
    simp only [List.cons_append, feedAll, ih, List.append_assoc]

end LineReader

/-- Where no line waits for its continuation, the commands can be told apart. -/
theorem commandsIn_append {lines : List String}
    (h : (LineReader.feedAll {} lines).2.isContinuing = false) (lines' : List String) :
    commandsIn (lines ++ lines') = commandsIn lines ++ commandsIn lines' := by
  obtain ⟨line, hlast⟩ : ∃ line, (LineReader.feedAll {} lines).2 = { line } := by
    refine ⟨(LineReader.feedAll {} lines).2.line, ?_⟩
    generalize (LineReader.feedAll {} lines).2 = reader at h
    obtain ⟨pending, line⟩ := reader
    cases pending with
    | nil => rfl
    | cons c pending => cases h
  have hfirst : LineReader.commandsFrom {} lines = (LineReader.feedAll {} lines).1 := by
    simp [LineReader.commandsFrom, hlast, LineReader.finish, LineReader.command?_nil]
  have hwhole : LineReader.commandsFrom {} (lines ++ lines') =
      (LineReader.feedAll {} lines).1 ++ LineReader.commandsFrom { line } lines' := by
    refine LineReader.commandsFrom_eq_append ?_ rfl
    rw [LineReader.feedAll_append, hlast]
  rw [commandsIn, commandsIn, commandsIn, hwhole, hfirst, List.map_append,
    LineReader.commandsFrom_eq_logicalTexts, LineReader.commandsFrom_eq_logicalTexts]

/-! ## Texts that start with a backslash -/

theorem dropEndWhile_append_cons {p : Char → Bool} {c : Char} (h : p c = false)
    (before text : List Char) :
    dropEndWhile p (before ++ c :: text) = before ++ c :: dropEndWhile p text := by
  simp [dropEndWhile, List.dropWhile_append, h]

namespace LineReader

variable {blanks : List Char} (hblanks : ∀ c ∈ blanks, isBlank c = true) (text : List Char)
include hblanks

theorem trim_blanks_append : trim (blanks ++ text) = trim text := by
  rw [trim, trimStart, List.dropWhile_append_of_pos hblanks]
  rfl

theorem command?_blanks_append : command? (blanks ++ text) = command? text := by
  simp only [command?, trim_blanks_append hblanks]

theorem command?_backslash : command? (blanks ++ '\\' :: text) = none := by
  have htrim : trim ('\\' :: text) = '\\' :: trimEnd text :=
    dropEndWhile_append_cons (by decide) [] text
  rw [command?_blanks_append hblanks]
  simp only [command?, htrim, if_true]

end LineReader

/-! ## Lines that start with a backslash -/

/-- The first character of the line is a backslash, white space aside. -/
def IsComment (raw : String) : Prop := (trimStart raw.toList).head? = some '\\'

/-- The line is continued, and not just because of the backslash that it starts with. -/
def swallowsNext (raw : String) : Bool := isContinued raw && trim raw.toList != ['\\']

theorem IsComment.exists_note {raw : String} (h : IsComment raw) :
    ∃ blanks note, raw.toList = blanks ++ '\\' :: note ∧ ∀ c ∈ blanks, isBlank c = true := by
  cases hstart : trimStart raw.toList with
  | nil =>
    rw [IsComment, hstart] at h
    cases h
  | cons c note =>
    rw [IsComment, hstart] at h
    obtain rfl : c = '\\' := Option.some.inj h
    refine ⟨raw.toList.takeWhile isBlank, note, ?_, fun c hc => List.mem_takeWhile_imp hc⟩
    rw [← hstart]
    exact List.takeWhile_append_dropWhile.symm

namespace IsComment

variable {raw : String} (h : IsComment raw)
include h

/-- It is skipped, if it is not continued. -/
theorem command?_linePart (hraw : isContinued raw = false) :
    LineReader.command? (linePart raw) = none := by
  obtain ⟨blanks, note, hnote, hblanks⟩ := h.exists_note
  rw [linePart, if_neg (by simp [hraw]), hnote, dropEndWhile_append_cons (by decide)]
  exact LineReader.command?_backslash hblanks _

/-- A line that is continued takes the text behind it along, unless it is a single backslash. -/
theorem command?_linePart_append (hraw : isContinued raw = true) (text : List Char) :
    LineReader.command? (linePart raw ++ text) =
      if swallowsNext raw then none else LineReader.command? text := by
  obtain ⟨blanks, note, hnote, hblanks⟩ := h.exists_note
  have htrimEnd : trimEnd raw.toList = blanks ++ '\\' :: trimEnd note := by
    rw [hnote]
    exact dropEndWhile_append_cons (by decide) blanks note
  have htrim : trim raw.toList = '\\' :: trimEnd note := by
    rw [hnote, LineReader.trim_blanks_append hblanks]
    exact dropEndWhile_append_cons (by decide) [] note
  have hblanks' : ∀ c ∈ blanks ++ [' '], isBlank c = true := by
    intro c hc
    rcases List.mem_append.mp hc with hc | hc
    · exact hblanks c hc
    · obtain rfl := List.mem_singleton.mp hc
      decide
  rw [linePart, if_pos hraw, htrimEnd, swallowsNext, hraw, htrim]
  cases htail : trimEnd note with
  | nil =>
    rw [List.dropLast_concat, LineReader.command?_blanks_append hblanks']
    rfl
  | cons c tail =>
    rw [List.dropLast_append_cons, List.dropLast_cons_cons, List.append_assoc, List.append_assoc,
      List.cons_append, LineReader.command?_backslash hblanks]
    rfl

end IsComment

/-! ## Inserting a line -/

/-- The commands when a line that starts with a backslash is inserted where no line waits for its
continuation. They stay the same, unless the line swallows a command: that of the logical line
behind it. -/
theorem commandsIn_insert_comment (before behind : List String) (comment : String)
    (hidle : (LineReader.feedAll {} before).2.isContinuing = false) (hcomment : IsComment comment) :
    commandsIn (before ++ behind) =
        commandsIn before ++ (logicalTexts behind).filterMap LineReader.command? ∧
      commandsIn (before ++ comment :: behind) = commandsIn before ++
        (if swallowsNext comment then (logicalTexts behind).tail
          else logicalTexts behind).filterMap LineReader.command? ∧
      (commandsIn (before ++ comment :: behind) = commandsIn (before ++ behind) ↔
        swallowsNext comment = false ∨
          ∀ text ∈ (logicalTexts behind).head?, LineReader.command? text = none) := by
  have hcommands : ∀ lines,
      commandsIn lines = (logicalTexts lines).filterMap LineReader.command? :=
    LineReader.commandsFrom_eq_logicalTexts 0
  have hwithout : commandsIn (before ++ behind) =
      commandsIn before ++ (logicalTexts behind).filterMap LineReader.command? := by
    rw [commandsIn_append hidle, hcommands behind]
  have hwith : commandsIn (before ++ comment :: behind) = commandsIn before ++
      (if swallowsNext comment then (logicalTexts behind).tail
        else logicalTexts behind).filterMap LineReader.command? := by
    rw [commandsIn_append hidle, hcommands (comment :: behind), logicalTexts]
    congr 1
    cases hraw : isContinued comment with
    | false =>
      have hkeeps : swallowsNext comment = false := by simp [swallowsNext, hraw]
      rw [if_neg Bool.false_ne_true, hkeeps, if_neg Bool.false_ne_true,
        List.filterMap_cons_none (hcomment.command?_linePart hraw)]
    | true =>
      have hfirst := hcomment.command?_linePart_append hraw ((logicalTexts behind).headD [])
      rw [if_pos rfl, List.filterMap_cons, hfirst]
      cases swallowsNext comment with
      | true => rfl
      | false =>
        cases logicalTexts behind with
        | nil => rfl
        | cons text texts =>
          rw [if_neg Bool.false_ne_true, if_neg Bool.false_ne_true]
          exact List.filterMap_cons.symm
  refine ⟨hwithout, hwith, ?_⟩
  rw [hwithout, hwith, List.append_cancel_left_eq]
  cases swallowsNext comment with
  | false => simp
  | true =>
    cases logicalTexts behind with
    | nil => simp
    | cons text texts =>
      cases hcommand : LineReader.command? text with
      | none => simp [hcommand]
      | some command => simp [hcommand]

/-- An expression that stands behind a line that starts and ends with a backslash is not
evaluated. -/
theorem commandsIn_insert_continued_comment :
    ¬ ∀ (before behind : List String) (comment : String),
      (LineReader.feedAll {} before).2.isContinuing = false → IsComment comment →
      commandsIn (before ++ comment :: behind) = commandsIn (before ++ behind) := by
  intro h
  have hsame := h [] ["ADD 1 2"] "\\ note \\" rfl rfl
  revert hsame
  decide

/-- A note between two expressions, and one that ends with a backslash. -/
theorem commandsIn_insert_comment_note :
    (LineReader.feedAll {} ["1"]).2.isContinuing = false ∧ IsComment "\\ note" ∧
      IsComment "\\ note \\" ∧
      commandsIn (["1"] ++ "\\ note" :: ["ADD 1 2", "2"]) =
        commandsIn (["1"] ++ ["ADD 1 2", "2"]) ∧
      commandsIn (["1"] ++ "\\ note \\" :: ["ADD 1 2", "2"]) = [.eval "1", .eval "2"] := by
  have hnote := commandsIn_insert_comment ["1"] ["ADD 1 2", "2"] "\\ note" rfl rfl
  have hcontinued := commandsIn_insert_comment ["1"] ["ADD 1 2", "2"] "\\ note \\" rfl rfl
  refine ⟨rfl, rfl, rfl, hnote.2.2.mpr (.inl (by decide)), hcontinued.2.1.trans (by decide)⟩

end BraceLang
