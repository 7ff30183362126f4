import BraceLang.Proofs.Denotation.Scanning
import BraceLang.Proofs.Plain.Reading

/-!
# The decomposition of a text

A text is cut into gaps and lexemes, one after the other, in exactly one way. What a gap or a lexeme
is depends on the text behind it only where it ends: a comment goes on to the next line feed, and a
word up to a character that is not part of words. The cutting ends at a quote without a counterpart
or, behind a last gap, with the text.

* `Lexicon.IsGap`, `Lexicon.IsLexeme`: gaps and lexemes, in front of the rest of a text.
* `Decomposition.Of`: the decompositions of a text.
* `Decomposition.Of.unique`, `Lexicon.exists_decomposition`: there is one and only one.
* `Lexer.reads_decomposition`: a lexer reads the lexemes of the decomposition, in their order.
-/

namespace BraceLang

/-! ## Gaps and lexemes -/

/-- The characters that open and close a string. -/
def IsQuote (c : Char) : Prop := c = '\'' ∨ c = '"'

theorem IsQuote.not_gap {quote : Char} (h : IsQuote quote) :
    isBlank quote = false ∧ quote ≠ '\\' := by
  rcases h with rfl | rfl <;> decide

namespace Lexicon

/-- White space and comments in front of a text. A comment goes on up to a line feed, which is
white space and no part of it, or to the end of the text. -/
inductive IsGap : CommentStyle → List Char → List Char → Prop
  | nil {style : CommentStyle} {rest : List Char} : IsGap style [] rest
  | blank {style : CommentStyle} {c : Char} {gap rest : List Char} : isBlank c = true →
    IsGap style gap rest → IsGap style (c :: gap) rest
  | comment {comment gap rest : List Char} : '\n' ∉ comment →
    (∀ c ∈ (gap ++ rest).head?, c = '\n') → IsGap .toEndOfLine gap rest →
    IsGap .toEndOfLine ('\\' :: (comment ++ gap)) rest
  | lastComment {comment : List Char} : IsGap .toEndOfInput ('\\' :: comment) []

/-- What a word stands for: the number that it is a literal of, else the keyword that it names, else
an atom of that name. -/
inductive Means (lx : Lexicon) (word : List Char) : Lexeme → Prop
  | number {value : Float} : readNumber? word = some value → Means lx word (.number value)
  | keyword {k : Keyword} : readNumber? word = none →
    lx.keyword? (String.ofList word) = some k → Means lx word (.keyword k)
  | atom : readNumber? word = none → lx.keyword? (String.ofList word) = none →
    Means lx word (.atom word)

/-- The characters of a lexeme, the lexeme, and the text behind it. A delimiter may be a quote but
neither white space nor a backslash. -/
inductive IsLexeme (lx : Lexicon) : List Char → Lexeme → List Char → Prop
  | delimiter {c : Char} {rest : List Char} : c ∈ lx.delimiters → isBlank c = false → c ≠ '\\' →
    IsLexeme lx [c] (.delimiter c) rest
  | string {quote : Char} {contents rest : List Char} : IsQuote quote → quote ∉ lx.delimiters →
    quote ∉ contents → IsLexeme lx (quote :: (contents ++ [quote])) (.string contents) rest
  | word {word rest : List Char} {token : Lexeme} : lx.IsWord word → lx.Parted rest →
    lx.Means word token → IsLexeme lx word token rest

variable {lx : Lexicon}

theorem means_classify (lx : Lexicon) (word : List Char) : lx.Means word (lx.classify word) := by
  unfold classify
  cases hnumber : readNumber? word with
  | some value => exact .number hnumber
  | none =>
    cases hkeyword : lx.keyword? (String.ofList word) with
    | some k => exact .keyword hnumber hkeyword
    | none => exact .atom hnumber hkeyword

theorem Means.classify_eq {word : List Char} {token : Lexeme} (h : lx.Means word token) :
    lx.classify word = token := by
  cases h with
  | number hnumber => simp only [classify, hnumber]
  | keyword hnumber hkeyword => simp only [classify, hnumber, hkeyword]
  | atom hnumber hkeyword => simp only [classify, hnumber, hkeyword]

/-! ## Reading over gaps -/

/-- No gap goes on into the text. -/
def Starts (text : List Char) : Prop := ∀ c ∈ text.head?, isBlank c = false ∧ c ≠ '\\'

theorem dropGap_of_starts (style : CommentStyle) {text : List Char} (h : Starts text) :
    dropGap style false text = text := by
  cases text with
  | nil => rfl
  | cons c text =>
    obtain ⟨hblank, hcomment⟩ := h c rfl
    exact dropGap_cons style hblank hcomment text

theorem dropGap_blank (style : CommentStyle) {c : Char} (h : isBlank c = true)
    (rest : List Char) : dropGap style false (c :: rest) = dropGap style false rest := by
  simp [dropGap, h]

theorem dropGap_toEndOfLine (rest : List Char) :
    dropGap .toEndOfLine false ('\\' :: rest) = dropGap .toEndOfLine true rest := rfl

theorem dropGap_toEndOfInput (rest : List Char) :
    dropGap .toEndOfInput false ('\\' :: rest) = [] := rfl

theorem dropGap_inside (style : CommentStyle) (c : Char) (rest : List Char) :
    dropGap style true (c :: rest) = dropGap style (c != '\n') rest := rfl

/-- Inside a comment everything is dropped up to the line feed, which belongs to the gap as well. -/
theorem dropGap_comment {comment text : List Char} (hcomment : '\n' ∉ comment)
    (htext : ∀ c ∈ text.head?, c = '\n') :
    dropGap .toEndOfLine true (comment ++ text) = dropGap .toEndOfLine false text := by
  induction comment with
  | nil =>
    cases text with
    | nil => rfl
    | cons c text =>
      cases htext c rfl
      rfl
  | cons c comment ih =>
    simp only [List.mem_cons, not_or] at hcomment
    have hinside : (c != '\n') = true := by simpa using Ne.symm hcomment.1
    rw [List.cons_append, dropGap_inside, hinside]
    exact ih hcomment.2

theorem IsGap.dropGap_append {style : CommentStyle} {gap rest : List Char}
    (h : IsGap style gap rest) :
    dropGap style false (gap ++ rest) = dropGap style false rest := by
  induction h with
  | nil => rfl
  | blank hblank _ ih => rw [List.cons_append, dropGap_blank _ hblank, ih]
  | comment hcomment hend _ ih =>
    rw [List.cons_append, List.append_assoc, dropGap_toEndOfLine, dropGap_comment hcomment hend,
      ih]
  | lastComment => rw [List.cons_append, dropGap_toEndOfInput, dropGap]

/-- What is dropped from a text is a gap. Inside a comment it is the end of the comment and then a
gap. -/
theorem exists_gap (style : CommentStyle) (text : List Char) :
    (∃ gap, text = gap ++ dropGap style false text ∧ IsGap style gap (dropGap style false text)) ∧
    ∃ comment gap, text = comment ++ (gap ++ dropGap style true text) ∧ '\n' ∉ comment ∧
      (∀ c ∈ (gap ++ dropGap style true text).head?, c = '\n') ∧
      IsGap style gap (dropGap style true text) := by
  induction text with
  | nil => exact ⟨⟨[], rfl, .nil⟩, ⟨[], [], rfl, by simp, by simp [dropGap], .nil⟩⟩
  | cons c text ih =>
    obtain ⟨⟨gap, htext, hgap⟩, ⟨comment, after, htail, hcomment, hend, hafter⟩⟩ := ih
    constructor
    · by_cases hblank : isBlank c = true
      · rw [dropGap_blank style hblank]
        exact ⟨c :: gap, by rw [List.cons_append, ← htext], .blank hblank hgap⟩
      · by_cases hstart : c = '\\'
        · subst hstart
          cases style with
          | toEndOfLine =>
            rw [dropGap_toEndOfLine]
            refine ⟨'\\' :: (comment ++ after), ?_, .comment hcomment hend hafter⟩
            rw [List.cons_append, List.append_assoc, ← htail]
          | toEndOfInput =>
            rw [dropGap_toEndOfInput]
            exact ⟨'\\' :: text, by rw [List.append_nil], .lastComment⟩
        · rw [dropGap_cons style (by simpa using hblank) hstart]
          exact ⟨[], rfl, .nil⟩
    · by_cases hfeed : c = '\n'
      · subst hfeed
        rw [dropGap_inside, bne_self_eq_false]
        refine ⟨[], '\n' :: gap, ?_, by simp, by simp, .blank (by decide) hgap⟩
        rw [List.nil_append, List.cons_append, ← htext]
      · have hinside : (c != '\n') = true := by simpa using hfeed
        rw [dropGap_inside, hinside]
        refine ⟨c :: comment, after, ?_, ?_, hend, hafter⟩
        · rw [List.cons_append, ← htail]
        · simp only [List.mem_cons, not_or]
          exact ⟨Ne.symm hfeed, hcomment⟩

theorem IsGap.read_append {gap rest : List Char} (h : IsGap lx.comment gap rest) :
    lx.read (gap ++ rest) = lx.read rest := by
  simp only [read, h.dropGap_append]

/-! ## Reading a lexeme -/

theorem IsLexeme.exists_cons {chars rest : List Char} {token : Lexeme}
    (h : lx.IsLexeme chars token rest) :
    ∃ c tail, chars = c :: tail ∧ isBlank c = false ∧ c ≠ '\\' := by
  cases h with
  | delimiter hmem hblank hcomment => exact ⟨_, [], rfl, hblank, hcomment⟩
  | string hquote _ _ => exact ⟨_, _, rfl, hquote.not_gap⟩
  | word hword _ _ =>
    obtain ⟨c, tail, rfl, -⟩ := hword.start
    obtain ⟨hblank, hcomment, -⟩ := inWord_eq_true_iff.mp (hword.inside c List.mem_cons_self)
    exact ⟨c, tail, rfl, hblank, hcomment⟩

theorem IsLexeme.ne_nil {chars rest : List Char} {token : Lexeme}
    (h : lx.IsLexeme chars token rest) : chars ≠ [] := by
  obtain ⟨c, tail, rfl, -⟩ := h.exists_cons
  exact List.cons_ne_nil c tail

theorem IsLexeme.starts {chars rest : List Char} {token : Lexeme}
    (h : lx.IsLexeme chars token rest) : Starts (chars ++ rest) := by
  obtain ⟨c, tail, rfl, hgap⟩ := h.exists_cons
  rintro d ⟨rfl⟩
  exact hgap

theorem IsLexeme.read_append {chars rest : List Char} {token : Lexeme}
    (h : lx.IsLexeme chars token rest) : lx.read (chars ++ rest) = .lexeme token rest := by
  cases h with
  | delimiter hmem hblank hcomment => exact read_delimiter hmem hblank hcomment rest
  | string hquote hdelimiter hcontents =>
    rw [List.cons_append, List.append_assoc, List.singleton_append]
    exact read_quote hquote hdelimiter hcontents rest
  | word hword hparted hmeans => rw [read_word hword hparted, hmeans.classify_eq]

/-- A quote without a counterpart. -/
theorem read_unclosed {quote : Char} {contents : List Char} (hquote : IsQuote quote)
    (hdelimiter : quote ∉ lx.delimiters) (hcontents : quote ∉ contents) :
    lx.read (quote :: contents) = .unterminated (quote :: contents) := by
  obtain ⟨hblank, hcomment⟩ := hquote.not_gap
  have hinside : ∀ c ∈ contents, (c != quote) = true := by
    intro c hc
    simp only [bne_iff_ne]
    rintro rfl
    exact hcontents hc
  have hdrop : contents.dropWhile (· != quote) = [] := List.dropWhile_eq_nil_iff.mpr hinside
  have hquote' : quote = '\'' ∨ quote = '"' := hquote
  simp only [read, dropGap_cons _ hblank hcomment, readLexeme, List.contains_eq_mem, hdelimiter,
    decide_false, Bool.false_eq_true, if_false, if_pos hquote', hdrop]

/-- A text that no gap starts is read as a lexeme, or it is a quote without a counterpart. -/
theorem readLexeme_cases (lx : Lexicon) {c : Char} (hblank : isBlank c = false)
    (hcomment : c ≠ '\\') (text : List Char) :
    (∃ chars token rest, c :: text = chars ++ rest ∧ lx.IsLexeme chars token rest) ∨
    (IsQuote c ∧ c ∉ lx.delimiters ∧ c ∉ text) := by
  by_cases hdelimiter : c ∈ lx.delimiters
  · exact .inl ⟨[c], .delimiter c, text, rfl, .delimiter hdelimiter hblank hcomment⟩
  · by_cases hquote : IsQuote c
    · by_cases hclosed : c ∈ text
      · obtain ⟨contents, behind, rfl, hcontents⟩ := List.eq_append_cons_of_mem hclosed
        left
        refine ⟨c :: (contents ++ [c]), .string contents, behind, ?_,
          .string hquote hdelimiter hcontents⟩
        rw [List.cons_append, List.append_assoc, List.singleton_append]
      · exact .inr ⟨hquote, hdelimiter, hclosed⟩
    · left
      have hc : lx.inWord c = true := inWord_eq_true_iff.mpr ⟨hblank, hcomment, hdelimiter⟩
      have hword : lx.IsWord (c :: text.takeWhile lx.inWord) := by
        refine ⟨⟨c, _, rfl, fun h => hquote (.inl h), fun h => hquote (.inr h)⟩, ?_⟩
        intro d hd
        rcases List.mem_cons.mp hd with rfl | hd
        · exact hc
        · exact List.mem_takeWhile_imp hd
      have hparted : lx.Parted (text.dropWhile lx.inWord) := by
        intro d hd
        have := List.head?_dropWhile_not lx.inWord text
        rw [Option.mem_def.mp hd] at this
        simpa using this
      refine ⟨_, _, _, ?_, .word hword hparted (means_classify lx _)⟩
      rw [List.cons_append, List.takeWhile_append_dropWhile]

end Lexicon

/-! ## Whole texts -/

/-- A lexeme with its characters and the gap in front of it. -/
structure Piece where
  gap : List Char
  chars : List Char
  token : Lexeme

def Piece.text (piece : Piece) : List Char := piece.gap ++ piece.chars

/-- The pieces of a text, the gap behind them, and what follows if a string is not closed. -/
structure Decomposition where
  pieces : List Piece
  gap : List Char
  quote? : Option (List Char)

namespace Decomposition

/-- Put a piece in front. -/
def cons (piece : Piece) (d : Decomposition) : Decomposition :=
  { d with pieces := piece :: d.pieces }

/-- The lexemes. -/
def tokens (d : Decomposition) : List Lexeme := d.pieces.map Piece.token

/-- The characters in front of a string that is not closed, or all characters. -/
def covered (d : Decomposition) : List Char := d.pieces.flatMap Piece.text ++ d.gap

/-- All characters. -/
def text (d : Decomposition) : List Char := d.covered ++ d.quote?.getD []

/-- The decompositions of a text. -/
inductive Of (lx : Lexicon) : Decomposition → List Char → Prop
  | finished {gap : List Char} : Lexicon.IsGap lx.comment gap [] → Of lx ⟨[], gap, none⟩ gap
  | unclosed {gap contents : List Char} {quote : Char} :
    Lexicon.IsGap lx.comment gap (quote :: contents) → IsQuote quote → quote ∉ lx.delimiters →
    quote ∉ contents → Of lx ⟨[], gap, some (quote :: contents)⟩ (gap ++ quote :: contents)
  | lexeme {gap chars rest : List Char} {token : Lexeme} {d : Decomposition} :
    Lexicon.IsGap lx.comment gap (chars ++ rest) → lx.IsLexeme chars token rest → Of lx d rest →
    Of lx (d.cons ⟨gap, chars, token⟩) (gap ++ (chars ++ rest))

variable {lx : Lexicon} {d d' : Decomposition} {text : List Char}

theorem read_unclosed {gap contents : List Char} {quote : Char}
    (hgap : Lexicon.IsGap lx.comment gap (quote :: contents)) (hquote : IsQuote quote)
    (hdelimiter : quote ∉ lx.delimiters) (hcontents : quote ∉ contents) :
    lx.read (gap ++ quote :: contents) = .unterminated (quote :: contents) := by
  rw [hgap.read_append, Lexicon.read_unclosed hquote hdelimiter hcontents]

theorem read_piece {gap chars rest : List Char} {token : Lexeme}
    (hgap : Lexicon.IsGap lx.comment gap (chars ++ rest)) (hlexeme : lx.IsLexeme chars token rest) :
    lx.read (gap ++ (chars ++ rest)) = .lexeme token rest := by
  rw [hgap.read_append, hlexeme.read_append]

theorem read_finished {gap : List Char} (hgap : Lexicon.IsGap lx.comment gap []) :
    lx.read gap = .finished := by
  have hread := hgap.read_append
  rwa [List.append_nil] at hread

/-- A gap ends where reading goes on. -/
theorem gap_unique {style : CommentStyle} {gap gap' rest rest' : List Char}
    (hgap : Lexicon.IsGap style gap rest) (hgap' : Lexicon.IsGap style gap' rest')
    (hrest : Lexicon.Starts rest) (hrest' : Lexicon.Starts rest')
    (heq : gap ++ rest = gap' ++ rest') : gap = gap' ∧ rest = rest' := by
  have hsame : rest = rest' := by
    rw [← Lexicon.dropGap_of_starts style hrest, ← hgap.dropGap_append, heq,
      hgap'.dropGap_append, Lexicon.dropGap_of_starts style hrest']
  subst hsame
  exact ⟨List.append_cancel_right heq, rfl⟩

namespace Of

theorem text_eq (h : Of lx d text) : d.text = text := by
  induction h with
  | finished _ => simp [Decomposition.text, covered]
  | unclosed _ _ _ _ => simp [Decomposition.text, covered]
  | @lexeme gap chars rest token d _ _ _ ih =>
    rw [← ih]
    simp [Decomposition.text, covered, cons, Piece.text]

/-- A text has no two decompositions. -/
theorem unique (h : Of lx d text) (h' : Of lx d' text) : d = d' := by
  induction h generalizing d' with
  | finished hgap =>
    have hread := read_finished hgap
    cases h' with
    | finished _ => rfl
    | unclosed hgap' hquote' hdelimiter' hcontents' =>
      rw [read_unclosed hgap' hquote' hdelimiter' hcontents'] at hread
      cases hread
    | lexeme hgap' hlexeme' _ =>
      rw [read_piece hgap' hlexeme'] at hread
      cases hread
  | @unclosed gap contents quote hgap hquote hdelimiter hcontents =>
    have hread := read_unclosed hgap hquote hdelimiter hcontents
    generalize htext : gap ++ quote :: contents = text at h' hread
    cases h' with
    | finished hgap' =>
      rw [read_finished hgap'] at hread
      cases hread
    | @unclosed gap' contents' quote' hgap' hquote' hdelimiter' hcontents' =>
      rw [read_unclosed hgap' hquote' hdelimiter' hcontents'] at hread
      cases hread
      rw [List.append_cancel_right htext]
    | lexeme hgap' hlexeme' _ =>
      rw [read_piece hgap' hlexeme'] at hread
      cases hread
  | @lexeme gap chars rest token d hgap hlexeme _ ih =>
    have hread := read_piece hgap hlexeme
    generalize htext : gap ++ (chars ++ rest) = text at h' hread
    cases h' with
    | finished hgap' =>
      rw [read_finished hgap'] at hread
      cases hread
    | unclosed hgap' hquote' hdelimiter' hcontents' =>
      rw [read_unclosed hgap' hquote' hdelimiter' hcontents'] at hread
      cases hread
    | lexeme hgap' hlexeme' hrest' =>
      rw [read_piece hgap' hlexeme'] at hread
      cases hread
      obtain ⟨rfl, hsame⟩ := gap_unique hgap hgap' hlexeme.starts hlexeme'.starts htext
      rw [List.append_cancel_right hsame, ih hrest']

end Of

end Decomposition

/-- Every text has a decomposition. -/
theorem Lexicon.exists_decomposition (lx : Lexicon) (text : List Char) :
    ∃ d : Decomposition, d.Of lx text := by
  induction hlength : text.length using Nat.strong_induction_on generalizing text with
  | h length ih =>
    subst hlength
    obtain ⟨gap, htext, hgap⟩ := (exists_gap lx.comment text).1
    cases hdrop : dropGap lx.comment false text with
    | nil =>
      rw [hdrop, List.append_nil] at htext
      rw [hdrop, ← htext] at hgap
      exact ⟨⟨[], text, none⟩, .finished hgap⟩
    | cons c rest =>
      obtain ⟨hblank, hcomment⟩ := not_gap_of_dropGap hdrop
      rw [hdrop] at htext hgap
      rcases lx.readLexeme_cases hblank hcomment rest with
        ⟨chars, token, behind, hsplit, hlexeme⟩ | ⟨hquote, hdelimiter, hcontents⟩
      · rw [hsplit] at htext hgap
        have hshorter : behind.length < text.length := by
          have hpos := List.length_pos_iff.mpr hlexeme.ne_nil
          rw [htext, List.length_append, List.length_append]
          omega
        obtain ⟨d, hd⟩ := ih behind.length hshorter behind rfl
        rw [htext]
        exact ⟨_, .lexeme hgap hlexeme hd⟩
      · rw [htext]
        exact ⟨_, .unclosed hgap hquote hdelimiter hcontents⟩

/-! ## What a lexer reads -/

namespace Lexer

/-- The answer to one of several calls, counted from zero. -/
def answer (lx : Lexicon) : Lexer → Nat → Except EvalError (Option Lexeme)
  | lexer, 0 => (lexer.next lx).1
  | lexer, n + 1 => (lexer.next lx).2.answer lx n

/-- At the end of the text, all calls find nothing. -/
theorem answer_of_rest_nil (lx : Lexicon) {lexer : Lexer} (h : lexer.rest = []) (n : Nat) :
    lexer.answer lx n = .ok none := by
  have hread : lx.read lexer.rest = .finished := by
    rw [h]
    rfl
  induction n generalizing lexer with
  | zero => simp only [answer, next, hread]
  | succ n ih =>
    simp only [answer, next, hread]
    exact ih rfl rfl

end Lexer

namespace Decomposition

/-- The answer that a decomposition gives to a call: the lexemes in their order, then the failure of
a string that is not closed, if there is one, and then nothing. -/
def answer (d : Decomposition) (offset : Nat) (n : Nat) : Except EvalError (Option Lexeme) :=
  match d.tokens[n]? with
  | some token => .ok (some token)
  | none =>
    if d.quote?.isSome ∧ n = d.tokens.length then .error (.unterminatedString offset) else .ok none

variable {lx : Lexicon} {d : Decomposition} {text : List Char}

theorem Of.answer_eq (h : Of lx d text) {lexer : Lexer} (hrest : lexer.rest = text) (n : Nat) :
    lexer.answer lx n = d.answer (lexer.length - (d.quote?.getD []).length) n := by
  induction h generalizing lexer n with
  | finished hgap =>
    have hread := read_finished hgap
    rw [← hrest] at hread
    cases n with
    | zero => simp [Lexer.answer, Lexer.next, hread, answer, tokens]
    | succ n =>
      simp only [Lexer.answer, Lexer.next, hread]
      rw [Lexer.answer_of_rest_nil lx rfl]
      simp [answer, tokens]
  | unclosed hgap hquote hdelimiter hcontents =>
    have hread := read_unclosed hgap hquote hdelimiter hcontents
    rw [← hrest] at hread
    cases n with
    | zero => simp [Lexer.answer, Lexer.next, hread, answer, tokens, Lexer.offsetOf]
    | succ n =>
      simp only [Lexer.answer, Lexer.next, hread]
      rw [Lexer.answer_of_rest_nil lx rfl]
      simp [answer, tokens]
  | lexeme hgap hlexeme _ ih =>
    have hread := read_piece hgap hlexeme
    rw [← hrest] at hread
    cases n with
    | zero => simp [Lexer.answer, Lexer.next, hread, answer, tokens, cons]
    | succ n =>
      simp only [Lexer.answer, Lexer.next, hread]
      rw [ih rfl]
      simp [answer, tokens, cons]

/-- Scanning finds the same lexemes. -/
theorem Of.lex_eq (h : Of lx d text) : lx.lex text = (d.tokens, d.quote?) := by
  induction h with
  | finished hgap =>
    rw [Lexicon.lex_of_finished (read_finished hgap)]
    rfl
  | unclosed hgap hquote hdelimiter hcontents =>
    rw [Lexicon.lex_of_unterminated (read_unclosed hgap hquote hdelimiter hcontents)]
    rfl
  | lexeme hgap hlexeme _ ih =>
    rw [Lexicon.lex_of_read (read_piece hgap hlexeme), ih]
    rfl

/-- Where the string that is not closed starts. -/
theorem length_covered (h : d.text = text) :
    d.covered.length = text.length - (d.quote?.getD []).length := by
  rw [← h, Decomposition.text, List.length_append, Nat.add_sub_cancel]

theorem Of.quote_ne_nil (h : Of lx d text) {quote : List Char} (hquote : d.quote? = some quote) :
    quote ≠ [] := by
  induction h with
  | finished _ => cases hquote
  | unclosed _ _ _ _ =>
    cases hquote
    exact List.cons_ne_nil _ _
  | lexeme _ _ _ ih => exact ih hquote

theorem Of.covered_eq_iff (h : Of lx d text) : d.covered = text ↔ d.quote? = none := by
  have htext := h.text_eq
  cases hquote : d.quote? with
  | none =>
    rw [Decomposition.text, hquote, Option.getD_none, List.append_nil] at htext
    simp [htext]
  | some quote =>
    rw [Decomposition.text, hquote, Option.getD_some] at htext
    simp [← htext, h.quote_ne_nil hquote]

theorem answer_eq_ok_iff {offset : Nat} :
    (∀ n, ∃ token?, d.answer offset n = .ok token?) ↔ d.quote? = none := by
  constructor
  · intro h
    obtain ⟨token?, hanswer⟩ := h d.tokens.length
    rw [answer, List.getElem?_eq_none (Nat.le_refl _)] at hanswer
    cases hquote : d.quote? with
    | none => rfl
    | some quote => simp [hquote] at hanswer
  · intro h n
    unfold answer
    cases d.tokens[n]? with
    | some token => exact ⟨some token, rfl⟩
    | none => exact ⟨none, by simp [h]⟩

theorem Of.chars_ne_nil (h : Of lx d text) : ∀ piece ∈ d.pieces, piece.chars ≠ [] := by
  induction h with
  | finished _ => simp
  | unclosed _ _ _ _ => simp
  | lexeme _ hlexeme _ ih =>
    intro piece hpiece
    rcases List.mem_cons.mp hpiece with rfl | hpiece
    · exact hlexeme.ne_nil
    · exact ih piece hpiece

end Decomposition

/-- The tokens of some lexemes, whose texts are all in the table in the end. -/
theorem Memory.exists_values (tokens : List Lexeme) (m : Memory) :
    ∃ values texts, tokens.mapM Lexeme.toValue m = .ok values { m with texts } ∧
      List.Forall₂ texts.DenotesToken values tokens ∧
      ∀ {ref : TextRef} {text : List Char}, m.texts.Names ref text → texts.Names ref text := by
  induction tokens generalizing m with
  | nil => exact ⟨[], m.texts, rfl, .nil, id⟩
  | cons token tokens ih =>
    obtain ⟨v, texts, hvalue, hv, -, hnames⟩ := m.toValue_apply token
    obtain ⟨values, last, hvalues, hdenotes, hkept⟩ := ih { m with texts }
    have hext : Memory.Extends { m with texts } { m with texts := last } := ⟨.refl _, hkept⟩
    refine ⟨v :: values, last, ?_, .cons (hv.mono hext) hdenotes, fun h => hkept (hnames h)⟩
    rw [List.mapM_cons, bind_of_ok hvalue, bind_of_ok hvalues]
    rfl

/-- A text has one decomposition, which loses nothing and has no empty lexeme. A lexer that is asked
again and again gives its lexemes in their order and then nothing, unless a string is not closed: it
reports that once, with the position of the quote. Scanning finds the same lexemes, and their tokens
have the texts that were read. -/
theorem Lexer.reads_decomposition (lx : Lexicon) (text : String) :
    ∃ d : Decomposition, d.Of lx text.toList ∧
      (∀ d' : Decomposition, d'.Of lx text.toList → d' = d) ∧
      d.text = text.toList ∧ (∀ piece ∈ d.pieces, piece.chars ≠ []) ∧
      (∀ n, (ofString text).answer lx n = d.answer d.covered.length n) ∧
      (d.covered = text.toList ↔ ∀ n, ∃ token?, (ofString text).answer lx n = .ok token?) ∧
      lx.lex text.toList = (d.tokens, d.quote?) ∧
      ∀ m : Memory, ∃ values texts, d.tokens.mapM Lexeme.toValue m = .ok values { m with texts } ∧
        List.Forall₂ texts.DenotesToken values d.tokens := by
  obtain ⟨d, hd⟩ := lx.exists_decomposition text.toList
  have hanswer : ∀ n, (ofString text).answer lx n = d.answer d.covered.length n := by
    intro n
    rw [Decomposition.length_covered hd.text_eq]
    exact hd.answer_eq rfl n
  refine ⟨d, hd, fun d' hd' => hd'.unique hd, hd.text_eq, hd.chars_ne_nil, hanswer, ?_, hd.lex_eq,
    ?_⟩
  · simp only [hanswer]
    rw [hd.covered_eq_iff, Decomposition.answer_eq_ok_iff]
  · intro m
    obtain ⟨values, texts, hvalues, hdenotes, -⟩ := m.exists_values d.tokens
    exact ⟨values, texts, hvalues, hdenotes⟩

end BraceLang
