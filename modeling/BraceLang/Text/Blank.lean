/-!
# Blank characters

White space is the class of characters with the Unicode property `White_Space`. The
trimming functions remove characters of a class from the ends of a text, which is a list
of characters here.

* `trimEnd_append_blank`: trimming the end forgets a blank last character.
* `isBlank_of_isWhitespace`: the class has all white space of the ASCII range.
-/

namespace BraceLang

/-- The characters with the property `White_Space`. -/
def isBlank (c : Char) : Bool :=
  let n := c.toNat
  (0x9 ≤ n && n ≤ 0xD) || n == 0x20 || n == 0x85 || n == 0xA0 || n == 0x1680 ||
    (0x2000 ≤ n && n ≤ 0x200A) || n == 0x2028 || n == 0x2029 || n == 0x202F ||
    n == 0x205F || n == 0x3000

theorem isBlank_of_isWhitespace {c : Char} (h : c.isWhitespace = true) : isBlank c = true := by
  simp only [Char.isWhitespace, Bool.or_eq_true, decide_eq_true_eq] at h
  rcases h with ((h | h) | h) | h <;> subst h <;> decide

/-- Remove the characters of a class from the end of a text. -/
def dropEndWhile (p : Char → Bool) (text : List Char) : List Char :=
  (text.reverse.dropWhile p).reverse

theorem dropEndWhile_concat {p : Char → Bool} {c : Char} (h : p c = true) (text : List Char) :
    dropEndWhile p (text ++ [c]) = dropEndWhile p text := by
  simp [dropEndWhile, h]

/-- Remove white space from the start of a text. -/
def trimStart (text : List Char) : List Char := text.dropWhile isBlank

/-- Remove white space from the end of a text. -/
def trimEnd (text : List Char) : List Char := dropEndWhile isBlank text

/-- Remove white space from both ends of a text. -/
def trim (text : List Char) : List Char := trimEnd (trimStart text)

theorem trimEnd_append_blank {c : Char} (h : isBlank c = true) (text : List Char) :
    trimEnd (text ++ [c]) = trimEnd text :=
  dropEndWhile_concat h text

end BraceLang
