import BraceLang.Proofs.Session.Lines
import Mathlib.Data.List.Induction
import Mathlib.Data.List.TakeWhile

/-!
# Assembling lines

What a reader answers to each line follows from a cut of the lines into segments, which knows
nothing about a reader. A segment has some continued lines and one that is not continued. Its answer
comes with that last line, and continued lines have none. Continued lines that are left over at the
end are what finishing answers to.

* `Yields`: the command of a text that was put together.
* `Segmentation`: the cut of lines into segments. There is just one.
* `LineReader.feedEach_segments`: the answers to lines that are cut.
* `LineReader.assembles`: reading any lines and finishing.
-/

namespace BraceLang

/-! ## Commands -/

/-- The command of a text, white space at its ends aside. There is none if nothing is left or a
backslash comes first. -/
inductive Yields (text : List Char) : Option Command → Prop
  | blank : trim text = [] → Yields text none
  | skipped {rest : List Char} : trim text = '\\' :: rest → Yields text none
  | bye : trim text = "bye".toList → Yields text (some .bye)
  | batch {path : List Char} : trim text = "batch ".toList ++ path →
    Yields text (some (.batch (String.ofList (trim path))))
  | eval : trim text ≠ [] → (∀ rest, trim text ≠ '\\' :: rest) → trim text ≠ "bye".toList →
    (∀ path, trim text ≠ "batch ".toList ++ path) →
    Yields text (some (.eval (String.ofList (trim text))))

theorem Command.ofLine_batch (path : List Char) :
    ofLine ("batch ".toList ++ path) = .batch (String.ofList (trim path)) := by
  have hbye : "batch ".toList ++ path ≠ "bye".toList := by
    intro h
    cases h
  have hprefix : "batch ".toList.isPrefixOf? ("batch ".toList ++ path) = some path :=
    List.isPrefixOf?_eq_some_iff_append_eq.mpr rfl
  rw [ofLine, if_neg hbye, hprefix]

theorem Command.ofLine_eval {line : List Char} (hbye : line ≠ "bye".toList)
    (hbatch : ∀ path, line ≠ "batch ".toList ++ path) :
    ofLine line = .eval (String.ofList line) := by
  have hprefix : "batch ".toList.isPrefixOf? line = none := by
    cases hpath : "batch ".toList.isPrefixOf? line with
    | none => rfl
    | some path => exact absurd (List.isPrefixOf?_eq_some_iff_append_eq.mp hpath).symm (hbatch path)
  rw [ofLine, if_neg hbye, hprefix]

namespace LineReader

variable {text : List Char}

theorem command?_of_trim {c : Char} {line : List Char} (h : trim text = c :: line) :
    command? text = if c = '\\' then none else some (.ofLine (c :: line)) := by
  simp only [command?, h]

theorem yields_command? (text : List Char) : Yields text (command? text) := by
  cases hline : trim text with
  | nil =>
    have hnone : command? text = none := by simp only [command?, hline]
    rw [hnone]
    exact .blank hline
  | cons c line =>
    rw [command?_of_trim hline]
    by_cases hskipped : c = '\\'
    · rw [if_pos hskipped]
      exact .skipped (hskipped ▸ hline)
    · rw [if_neg hskipped, ← hline]
      by_cases hbye : trim text = "bye".toList
      · rw [hbye]
        exact .bye hbye
      · by_cases hbatch : ∃ path, trim text = "batch ".toList ++ path
        · obtain ⟨path, hpath⟩ := hbatch
          rw [hpath, Command.ofLine_batch]
          exact .batch hpath
        · have hbatch := not_exists.mp hbatch
          rw [Command.ofLine_eval hbye hbatch]
          refine .eval (by simp [hline]) (fun rest hrest => ?_) hbye hbatch
          rw [hline] at hrest
          exact hskipped (List.cons.inj hrest).1

/-- A text has one answer. -/
theorem command?_of_yields {answer : Option Command} (h : Yields text answer) :
    command? text = answer := by
  cases h with
  | blank h => simp only [command?, h]
  | skipped h => rw [command?_of_trim h, if_pos rfl]
  | bye h =>
    rw [command?_of_trim h]
    decide
  | @batch path h =>
    rw [command?_of_trim h, if_neg (by decide)]
    exact congrArg some (Command.ofLine_batch path)
  | eval hne hskipped hbye hbatch =>
    obtain ⟨c, line, hline⟩ := List.exists_cons_of_ne_nil hne
    have hc : c ≠ '\\' := by
      rintro rfl
      exact hskipped line hline
    rw [command?_of_trim hline, if_neg hc, ← hline, Command.ofLine_eval hbye hbatch]

end LineReader

/-! ## Segments -/

/-- What is left of a continued line: white space at its end and one backslash are removed, and a
space follows. -/
def heldPart (raw : String) : List Char := (trimEnd raw.toList).dropLast ++ [' ']

/-- What is left of a line that is not continued: the characters of its line end are removed. -/
def lastPart (raw : String) : List Char := dropEndWhile LineReader.isLineEnd raw.toList

theorem linePart_of_isContinued {raw : String} (h : isContinued raw = true) :
    linePart raw = heldPart raw := if_pos h

theorem linePart_of_not_isContinued {raw : String} (h : isContinued raw = false) :
    linePart raw = lastPart raw := if_neg (by simp [h])

/-- Continued lines and the line behind them, with the command of the text that they are put
together to. -/
@[ext]
structure Segment where
  held : List String
  last : String
  answer : Option Command
  continued : ∀ raw ∈ held, isContinued raw = true
  complete : isContinued last = false
  yields : Yields (held.flatMap heldPart ++ lastPart last) answer

namespace Segment

def lines (s : Segment) : List String := s.held ++ [s.last]

/-- The answers to the lines: that of the segment comes last. -/
def answers (s : Segment) : List (Option Command) := s.held.map (fun _ => none) ++ [s.answer]

/-- Continued lines and the line behind them. -/
def of (held : List String) (last : String) (continued : ∀ raw ∈ held, isContinued raw = true)
    (complete : isContinued last = false) : Segment where
  held := held
  last := last
  answer := LineReader.command? (held.flatMap heldPart ++ lastPart last)
  continued := continued
  complete := complete
  yields := LineReader.yields_command? _

/-- The first line that is not continued ends the first segment. -/
theorem eq_of_append {s s' : Segment} {rest rest' : List String}
    (h : s.lines ++ rest = s'.lines ++ rest') : s = s' ∧ rest = rest' := by
  have hend : ∀ (s : Segment) rest, isContinued s.last = false ∧
      (s.lines ++ rest).takeWhile isContinued = s.held ∧
      (s.lines ++ rest).dropWhile isContinued = s.last :: rest := by
    intro s rest
    rw [lines, List.append_assoc, List.takeWhile_append_of_pos s.continued,
      List.dropWhile_append_of_pos s.continued]
    simp [s.complete]
  obtain ⟨-, htake, hdrop⟩ := hend s rest
  obtain ⟨-, htake', hdrop'⟩ := hend s' rest'
  have hheld : s.held = s'.held := by rw [← htake, ← htake', h]
  have hlast : s.last :: rest = s'.last :: rest' := by rw [← hdrop, ← hdrop', h]
  obtain ⟨hlast, hrest⟩ := List.cons.inj hlast
  refine ⟨Segment.ext hheld hlast ?_, hrest⟩
  rw [← LineReader.command?_of_yields s.yields, ← LineReader.command?_of_yields s'.yields, hheld,
    hlast]

end Segment

/-- Lines that are cut into segments. Continued lines can be left over at the end. -/
@[ext]
structure Segmentation (lines : List String) where
  segments : List Segment
  rest : List String
  answer : Option Command
  eq : lines = segments.flatMap Segment.lines ++ rest
  continued : ∀ raw ∈ rest, isContinued raw = true
  yields : Yields (rest.flatMap heldPart) answer

theorem segments_unique {segments segments' : List Segment} {rest rest' : List String}
    (hrest : ∀ raw ∈ rest, isContinued raw = true) (hrest' : ∀ raw ∈ rest', isContinued raw = true)
    (h : segments.flatMap Segment.lines ++ rest = segments'.flatMap Segment.lines ++ rest') :
    segments = segments' ∧ rest = rest' := by
  -- A line that is not continued is never left over.
  have hleft : ∀ {rest : List String} {s : Segment} {more : List String},
      (∀ raw ∈ rest, isContinued raw = true) → rest ≠ s.lines ++ more := by
    rintro rest s more hrest rfl
    have hlast := hrest s.last (by simp [Segment.lines])
    rw [s.complete] at hlast
    cases hlast
  induction segments generalizing segments' with
  | nil =>
    cases segments' with
    | nil => exact ⟨rfl, h⟩
    | cons s' segments' =>
      rw [List.flatMap_cons, List.append_assoc] at h
      exact absurd h (hleft hrest)
  | cons s segments ih =>
    cases segments' with
    | nil =>
      rw [List.flatMap_cons, List.append_assoc] at h
      exact absurd h.symm (hleft hrest')
    | cons s' segments' =>
      rw [List.flatMap_cons, List.flatMap_cons, List.append_assoc, List.append_assoc] at h
      obtain ⟨rfl, hmore⟩ := Segment.eq_of_append h
      obtain ⟨rfl, hrests⟩ := ih hmore
      exact ⟨rfl, hrests⟩

namespace Segmentation

theorem unique {lines : List String} (cut cut' : Segmentation lines) : cut = cut' := by
  obtain ⟨hsegments, hrest⟩ :=
    segments_unique cut.continued cut'.continued (cut.eq.symm.trans cut'.eq)
  refine Segmentation.ext hsegments hrest ?_
  rw [← LineReader.command?_of_yields cut.yields, ← LineReader.command?_of_yields cut'.yields,
    hrest]

/-- Lines are cut from the front. -/
theorem exists_segments (lines : List String) : ∃ (segments : List Segment) (rest : List String),
    lines = segments.flatMap Segment.lines ++ rest ∧ ∀ raw ∈ rest, isContinued raw = true := by
  induction lines with
  | nil => exact ⟨[], [], rfl, by simp⟩
  | cons raw lines ih =>
    obtain ⟨segments, rest, hlines, hrest⟩ := ih
    cases hraw : isContinued raw with
    | false =>
      refine ⟨.of [] raw (by simp) hraw :: segments, rest, ?_, hrest⟩
      rw [hlines]
      rfl
    | true =>
      cases segments with
      | nil => exact ⟨[], raw :: rest, by rw [hlines]; rfl, by simpa using ⟨hraw, hrest⟩⟩
      | cons s segments =>
        refine ⟨.of (raw :: s.held) s.last (by simpa using ⟨hraw, s.continued⟩) s.complete ::
          segments, rest, ?_, hrest⟩
        rw [hlines]
        rfl

end Segmentation

/-! ## Reading segments -/

namespace LineReader

/-- Read some lines. There is an answer to each of them. -/
def feedEach : LineReader → List String → List (Option Command) × LineReader
  | reader, [] => ([], reader)
  | reader, raw :: lines =>
    let (answer, reader) := reader.feed raw
    let (answers, reader) := reader.feedEach lines
    (answer :: answers, reader)

theorem feedEach_cons (reader : LineReader) (raw : String) (lines : List String) :
    reader.feedEach (raw :: lines) =
      ((reader.feed raw).1 :: ((reader.feed raw).2.feedEach lines).1,
        ((reader.feed raw).2.feedEach lines).2) := rfl

theorem feedEach_append (reader : LineReader) (lines lines' : List String) :
    reader.feedEach (lines ++ lines') =
      ((reader.feedEach lines).1 ++ ((reader.feedEach lines).2.feedEach lines').1,
        ((reader.feedEach lines).2.feedEach lines').2) := by
  induction lines generalizing reader with
  | nil => rfl
  | cons raw lines ih =>
    rw [List.cons_append, feedEach_cons, feedEach_cons, ih]
    rfl

/-- Continued lines are put together and have no answer. -/
theorem feedEach_held (reader : LineReader) {held : List String}
    (h : ∀ raw ∈ held, isContinued raw = true) :
    reader.feedEach held = (held.map fun _ => none,
      ⟨reader.pending ++ held.flatMap heldPart, reader.line + held.length⟩) := by
  induction held generalizing reader with
  | nil => simp [feedEach]
  | cons raw held ih =>
    have hraw := h raw List.mem_cons_self
    have hfeed : reader.feed raw = (none, ⟨reader.pending ++ heldPart raw, reader.line + 1⟩) := by
      rw [feed_apply, if_pos hraw, linePart_of_isContinued hraw]
    rw [feedEach_cons, hfeed, ih _ fun other hother => h other (List.mem_cons_of_mem _ hother)]
    simp only [List.map_cons, List.flatMap_cons, List.append_assoc, List.length_cons]
    rw [Nat.add_right_comm, Nat.add_assoc reader.line]

/-- Nothing waits behind a segment. -/
theorem feedEach_segment (line : Nat) (s : Segment) :
    feedEach { line } s.lines = (s.answers, { line := line + s.lines.length }) := by
  have hfeed : feed ⟨s.held.flatMap heldPart, line + s.held.length⟩ s.last =
      (s.answer, { line := line + s.held.length + 1 }) := by
    rw [feed_apply, if_neg (by simp [s.complete]), linePart_of_not_isContinued s.complete,
      command?_of_yields s.yields]
  rw [Segment.lines, feedEach_append, feedEach_held _ s.continued, List.nil_append, feedEach_cons,
    hfeed, List.length_append]
  rfl

theorem feedEach_segments (line : Nat) (segments : List Segment) :
    feedEach { line } (segments.flatMap Segment.lines) =
      (segments.flatMap Segment.answers,
        { line := line + (segments.flatMap Segment.lines).length }) := by
  induction segments generalizing line with
  | nil => rfl
  | cons s segments ih =>
    rw [List.flatMap_cons, List.flatMap_cons, feedEach_append, feedEach_segment, ih,
      List.length_append, Nat.add_assoc]

/-! ## The state of a reader -/

/-- Every line is counted, and the reader waits for another line just behind a continued one. -/
theorem feed_state (reader : LineReader) (raw : String) :
    (reader.feed raw).2.line = reader.line + 1 ∧
      (reader.feed raw).2.isContinuing = isContinued raw := by
  rw [feed_apply]
  cases hraw : isContinued raw with
  | false => exact ⟨rfl, rfl⟩
  | true =>
    refine ⟨rfl, ?_⟩
    simp [isContinuing, linePart_of_isContinued hraw, heldPart]

theorem feedEach_state (lines : List String) :
    (feedEach {} lines).2.line = lines.length ∧
      (feedEach {} lines).2.isContinuing = lines.getLast?.any isContinued := by
  induction lines using List.reverseRecOn with
  | nil => exact ⟨rfl, rfl⟩
  | append_singleton lines raw ih =>
    obtain ⟨hline, hcontinuing⟩ := (feedEach {} lines).2.feed_state raw
    rw [feedEach_append, feedEach_cons, List.length_append, List.getLast?_concat]
    exact ⟨by rw [← ih.1]; exact hline, hcontinuing⟩

/-- Reading any lines with a new reader and finishing. Each segment has its answer with its last
line, and what is left over has it when the reader is told to finish, which empties it. -/
theorem assembles (lines : List String) :
    ∃ cut : Segmentation lines, (∀ cut', cut' = cut) ∧
      (feedEach {} lines).1 =
        cut.segments.flatMap Segment.answers ++ cut.rest.map (fun _ => none) ∧
      (∀ k, (feedEach {} (lines.take k)).2.line = (lines.take k).length ∧
        (feedEach {} (lines.take k)).2.isContinuing = (lines.take k).getLast?.any isContinued) ∧
      let finished := (feedEach {} lines).2.finish
      finished.1 = cut.answer ∧ finished.2.line = lines.length ∧
        finished.2.isContinuing = false ∧ finished.2.finish.1 = none := by
  obtain ⟨segments, rest, hlines, hrest⟩ := Segmentation.exists_segments lines
  refine ⟨⟨segments, rest, _, hlines, hrest, yields_command? _⟩, fun cut' => cut'.unique _, ?_⟩
  have hread := feedEach_segments 0 segments
  have hwhole : feedEach {} lines = (segments.flatMap Segment.answers ++ rest.map (fun _ => none),
      ⟨rest.flatMap heldPart, lines.length⟩) := by
    rw [hlines, feedEach_append, hread, feedEach_held _ hrest, List.length_append]
    simp
  refine ⟨by rw [hwhole], fun k => feedEach_state _, ?_⟩
  rw [hwhole]
  exact ⟨rfl, rfl, rfl, rfl⟩

/-- A command that is put together from two lines, and a line that is skipped. -/
example : (feedEach {} ["batch\\ ", " f\r\n", "\\ note"]).1 =
    [none, some (.batch "f"), none] := by decide

end LineReader

end BraceLang
