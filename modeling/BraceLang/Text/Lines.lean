/-!
# Physical lines

A text is cut into lines at line feeds. A line feed does not belong to the line that it ends,
and neither does one carriage return in front of it. A line feed at the end of the text does
not begin another line.

* `cutLines_append_lineFeed`: a line feed ends a line, whatever comes behind it.
-/

namespace BraceLang

/-- Put a character in front of the first line. -/
def consFirst (c : Char) : List (List Char) → List (List Char)
  | [] => [[c]]
  | line :: lines => (c :: line) :: lines

/-- Cut a text into lines. -/
def cutLines : List Char → List (List Char)
  | [] => []
  | '\n' :: rest => [] :: cutLines rest
  | '\r' :: '\n' :: rest => [] :: cutLines rest
  | c :: rest => consFirst c (cutLines rest)

/-- The lines of a text. -/
def physicalLines (text : String) : List String :=
  (cutLines text.toList).map String.ofList

theorem cutLines_append_lineFeed {line : List Char} (hn : '\n' ∉ line) (hr : '\r' ∉ line)
    (rest : List Char) : cutLines (line ++ '\n' :: rest) = line :: cutLines rest := by
  induction line with
  | nil => rfl
  | cons c line ih =>
    simp only [List.mem_cons, not_or] at hn hr
    have hc : cutLines (c :: (line ++ '\n' :: rest)) =
        consFirst c (cutLines (line ++ '\n' :: rest)) := by
      rw [cutLines]
      · exact fun h => hn.1 h.symm
      · exact fun _ h => absurd h.symm hr.1
    rw [List.cons_append, hc, ih hn.2 hr.2, consFirst]

end BraceLang
