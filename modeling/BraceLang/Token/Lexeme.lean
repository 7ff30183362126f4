import BraceLang.Config
import BraceLang.Decimal.Literal
import BraceLang.Keyword
import BraceLang.Text.Blank

/-!
# Lexemes

A text is a sequence of lexemes with gaps between them. A gap consists of white space and of
comments, which start at a backslash. A lexeme is a delimiter character, a string between two
equal quotes, or a word: a run of characters up to the next gap or delimiter. Quotes start a
string only where a lexeme starts, and a delimiter is one before it is a quote. A word is a
number if all of it is a number literal, else a keyword if it names one, else an atom.

* `Lexicon.read`: the first lexeme of a text.
* `Lexicon.length_rest_lt_of_read`: a lexeme is not empty.
* `Lexicon.lex`: all lexemes of a text, up to a string that is not closed.
-/

namespace BraceLang

/-- The lexical rules. -/
structure Lexicon where
  delimiters : List Char
  comment : CommentStyle
  /-- the keyword that a word stands for -/
  keyword? : String → Option Keyword

/-- The rules that a configuration asks for. -/
def Config.lexicon (config : Config) : Lexicon :=
  ⟨config.delimiters.toList, config.comment, Keyword.ofName?⟩

inductive Lexeme where
  | delimiter (c : Char)
  /-- the characters between two quotes -/
  | string (contents : List Char)
  | number (value : Float)
  | keyword (k : Keyword)
  | atom (name : List Char)

/-- What comes first in a text. -/
inductive Reading where
  /-- nothing but a gap -/
  | finished
  /-- a lexeme, with the text behind it -/
  | lexeme (token : Lexeme) (rest : List Char)
  /-- a quote without a counterpart, with the text behind it -/
  | unterminated (text : List Char)

namespace Lexicon

/-- Drop the gap at the start of a text. The flag says that the text starts inside a comment.
The line feed that ends a comment belongs to the gap as well. -/
def dropGap (style : CommentStyle) : Bool → List Char → List Char
  | _, [] => []
  | true, c :: rest => dropGap style (c != '\n') rest
  | false, c :: rest =>
    if isBlank c then dropGap style false rest
    else if c = '\\' then
      match style with
      | .toEndOfLine => dropGap style true rest
      | .toEndOfInput => []
    else c :: rest

/-- A word goes on up to white space, a comment or a delimiter. -/
def inWord (lx : Lexicon) (c : Char) : Bool :=
  !(isBlank c || c == '\\' || lx.delimiters.contains c)

/-- What a word stands for. -/
def classify (lx : Lexicon) (word : List Char) : Lexeme :=
  match readNumber? word with
  | some value => .number value
  | none =>
    match lx.keyword? (String.ofList word) with
    | some k => .keyword k
    | none => .atom word

/-- Read a lexeme whose first character is given. -/
def readLexeme (lx : Lexicon) (c : Char) (rest : List Char) : Reading :=
  if lx.delimiters.contains c then .lexeme (.delimiter c) rest
  else if c = '\'' ∨ c = '"' then
    match rest.dropWhile (· != c) with
    | [] => .unterminated (c :: rest)
    | _ :: behind => .lexeme (.string (rest.takeWhile (· != c))) behind
  else .lexeme (lx.classify (c :: rest.takeWhile lx.inWord)) (rest.dropWhile lx.inWord)

/-- Read the first lexeme of a text. -/
def read (lx : Lexicon) (text : List Char) : Reading :=
  match dropGap lx.comment false text with
  | [] => .finished
  | c :: rest => lx.readLexeme c rest

/-! ## Every lexeme has a character -/

theorem length_dropGap_le (style : CommentStyle) (inside : Bool) (text : List Char) :
    (dropGap style inside text).length ≤ text.length := by
  induction text generalizing inside with
  | nil => cases inside <;> simp [dropGap]
  | cons c rest ih =>
    cases inside with
    | true => exact Nat.le_succ_of_le (ih _)
    | false =>
      unfold dropGap
      split
      · exact Nat.le_succ_of_le (ih _)
      · split
        · cases style with
          | toEndOfLine => exact Nat.le_succ_of_le (ih _)
          | toEndOfInput => exact Nat.zero_le _
        · exact Nat.le_refl _

theorem length_dropWhile_le (p : Char → Bool) (text : List Char) :
    (text.dropWhile p).length ≤ text.length :=
  (List.dropWhile_suffix p).length_le

theorem length_rest_le_of_readLexeme {lx : Lexicon} {c : Char} {text rest : List Char}
    {token : Lexeme} (h : lx.readLexeme c text = .lexeme token rest) :
    rest.length ≤ text.length := by
  unfold readLexeme at h
  split at h
  · cases h
    exact Nat.le_refl _
  · split at h
    · split at h
      · cases h
      · rename_i behind heq
        cases h
        have := length_dropWhile_le (· != c) text
        rw [heq] at this
        exact Nat.le_of_succ_le this
    · cases h
      exact length_dropWhile_le _ _

theorem length_rest_lt_of_read {lx : Lexicon} {text rest : List Char} {token : Lexeme}
    (h : lx.read text = .lexeme token rest) : rest.length < text.length := by
  unfold read at h
  split at h
  · cases h
  · rename_i c behind heq
    have hgap := length_dropGap_le lx.comment false text
    rw [heq] at hgap
    exact Nat.lt_of_lt_of_le (Nat.lt_succ_of_le (length_rest_le_of_readLexeme h)) hgap

/-! ## Whole texts -/

/-- The lexemes of a text. If a string is not closed, they end in front of it, and the text
from its quote on is given too. -/
def lex (lx : Lexicon) (text : List Char) : List Lexeme × Option (List Char) :=
  match _h : lx.read text with
  | .finished => ([], none)
  | .unterminated quote => ([], some quote)
  | .lexeme token rest =>
    let (tokens, quote?) := lx.lex rest
    (token :: tokens, quote?)
termination_by text.length
decreasing_by exact length_rest_lt_of_read _h

end Lexicon

end BraceLang
