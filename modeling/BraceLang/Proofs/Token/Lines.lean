import BraceLang.Proofs.Denotation.Rescanning
import BraceLang.Proofs.Token.Decomposition

/-!
# The lines of a text

Where comments go on to the end of their line, a line feed ends whatever a text ends with, a string
that is not closed aside: a word, a comment or white space. It is white space itself, even where it
is listed among the delimiters. So the tokens of two texts with a line feed between them are those
of the first one and then those of the second one, and what is wrong with the second one is found
where it was, counted from the line feed.

* `Lexicon.IsGap.before_line`, `Lexicon.IsLexeme.before_line`: gaps and lexemes in front of a line.
* `Decomposition.Of.lex_before_line`: the lexemes of a text with another line behind it.
* `Memory.scansTo_iff`, `Memory.failsAt_iff`: when a text is scanned and when it fails.
* `Memory.scan_lines`: scanning a text line by line.
-/

namespace BraceLang

namespace Lexicon

theorem isBlank_newline : isBlank '\n' = true := by decide

theorem IsGap.before_line {style : CommentStyle} (hstyle : style = .toEndOfLine)
    {gap rest : List Char} (h : IsGap style gap rest) (line : List Char) :
    IsGap style gap (rest ++ '\n' :: line) := by
  induction h with
  | nil => exact .nil
  | blank hblank _ ih => exact .blank hblank (ih hstyle)
  | @comment comment gap rest hcomment hend _ ih =>
    refine .comment hcomment ?_ (ih rfl)
    rw [← List.append_assoc]
    cases hbehind : gap ++ rest with
    | nil => simp
    | cons c behind =>
      rw [hbehind] at hend
      exact hend
  | lastComment => cases hstyle

variable {lx : Lexicon}

theorem Parted.before_line {rest : List Char} (h : lx.Parted rest) (line : List Char) :
    lx.Parted (rest ++ '\n' :: line) := by
  cases rest with
  | nil =>
    rintro c ⟨rfl⟩
    simp [inWord, isBlank_newline]
  | cons c rest => exact h

theorem IsLexeme.before_line {chars rest : List Char} {token : Lexeme}
    (h : lx.IsLexeme chars token rest) (line : List Char) :
    lx.IsLexeme chars token (rest ++ '\n' :: line) := by
  cases h with
  | delimiter hmem hblank hcomment => exact .delimiter hmem hblank hcomment
  | string hquote hdelimiter hcontents => exact .string hquote hdelimiter hcontents
  | word hword hparted hmeans => exact .word hword (hparted.before_line line) hmeans

end Lexicon

/-- The lexemes of a text without an open string, with another line behind it. -/
theorem Decomposition.Of.lex_before_line {lx : Lexicon} (hstyle : lx.comment = .toEndOfLine)
    {d : Decomposition} {text : List Char} (h : d.Of lx text) (hclosed : d.quote? = none)
    (line : List Char) :
    lx.lex (text ++ '\n' :: line) = (d.tokens ++ (lx.lex line).1, (lx.lex line).2) := by
  induction h with
  | @finished gap hgap =>
    have hline : lx.read (gap ++ '\n' :: line) = lx.read line := by
      rw [← List.nil_append ('\n' :: line), (hgap.before_line hstyle line).read_append]
      simp only [List.nil_append, Lexicon.read,
        Lexicon.dropGap_blank lx.comment Lexicon.isBlank_newline]
    rw [Lexicon.lex_congr hline]
    rfl
  | unclosed => cases hclosed
  | @lexeme gap chars rest token d hgap hlexeme _ ih =>
    have hbefore : Lexicon.IsGap lx.comment gap (chars ++ (rest ++ '\n' :: line)) := by
      rw [← List.append_assoc]
      exact hgap.before_line hstyle line
    rw [List.append_assoc, List.append_assoc,
      Lexicon.lex_of_read (read_piece hbefore (hlexeme.before_line line)), ih hclosed]
    rfl

/-- An open string is the end of its text. -/
theorem Lexicon.length_unclosed_le {lx : Lexicon} {text quote : List Char}
    {tokens : List Lexeme} (h : lx.lex text = (tokens, some quote)) :
    quote.length ≤ text.length := by
  obtain ⟨d, hd⟩ := lx.exists_decomposition text
  rw [hd.lex_eq] at h
  have hquote : d.quote? = some quote := (Prod.ext_iff.mp h).2
  rw [← hd.text_eq, Decomposition.text, hquote, List.length_append]
  exact Nat.le_add_left _ _

namespace Memory

/-! ## Scanning -/

/-- The text is scanned, with these tokens. -/
def ScansTo (m : Memory) (lx : Lexicon) (text : String) (tokens : Tokens) : Prop :=
  ∃ stream m', scan lx text m = .ok stream m' ∧ m'.Holds stream tokens

/-- The text has a string without end that starts at an offset, behind a number of tokens. -/
def FailsAt (m : Memory) (lx : Lexicon) (text : String) (offset taken : Nat) : Prop :=
  ∃ m', scan lx text m = .error (.unterminatedString offset) m' ∧
    m'.store.used = m.store.used + taken

variable {m : Memory} {lx : Lexicon} {text : String} {tokens : Tokens}

theorem rightUnique_denotesToken (t : TextTable) : Relator.RightUnique t.DenotesToken := by
  intro v token token' h h'
  cases h with
  | delimiter => cases h'; rfl
  | number => cases h'; rfl
  | keyword => cases h'; rfl
  | string hname =>
    cases h' with
    | string hname' => rw [hname.text_eq hname']
  | atom hname =>
    cases h' with
    | atom hname' => rw [hname.text_eq hname']

theorem Holds.unique {stream : TokenStream} {tokens' : Tokens} (h : m.Holds stream tokens)
    (h' : m.Holds stream tokens') : tokens = tokens' := by
  obtain ⟨⟨values, hchain, hvalues⟩, -⟩ := h
  obtain ⟨⟨values', hchain', hvalues'⟩, -⟩ := h'
  obtain rfl := hchain.unique hchain'
  exact List.reverse_injective
    (List.right_unique_forall₂' (rightUnique_denotesToken m.texts) hvalues hvalues')

theorem scansTo_iff (hs : m.store.Layout) (ht : m.texts.Distinct) :
    m.ScansTo lx text tokens ↔
      lx.lex text.toList = (tokens, none) ∧ m.Grants tokens.length := by
  constructor
  · rintro ⟨stream, m', hscan, hholds⟩
    have hlex : lx.lex text.toList = ((lx.lex text.toList).1, none) :=
      Prod.ext rfl (lex_of_scan hscan)
    have hwrites := writes_scan hs ht hlex
    rw [hscan] at hwrites
    obtain ⟨hgranted, -, hfound⟩ := hwrites.of_ok
    rw [hholds.unique hfound]
    exact ⟨hlex, hgranted⟩
  · rintro ⟨hlex, hgranted⟩
    obtain ⟨stream, m', hscan, -, hholds⟩ := (writes_scan hs ht hlex).exists_ok hgranted
    exact ⟨stream, m', hscan, hholds⟩

theorem ofStore_ne_unterminatedString (cause : StoreError) (offset : Nat) :
    EvalError.ofStore cause ≠ .unterminatedString offset := by
  cases cause <;> simp [EvalError.ofStore, StoreError.isExhaustion]

/-- The open string is found behind the tokens in front of it, if there are cells for these. -/
theorem scan_unclosed (hs : m.store.Layout) (ht : m.texts.Distinct) {quote : List Char}
    (hlex : lx.lex text.toList = (tokens, some quote)) :
    (m.Grants tokens.length ∧
      ∃ m', m.Wrote tokens.length m' ∧
        scan lx text m = .error (.unterminatedString (text.length - quote.length)) m') ∨
    ∃ cause m', ¬ m.Grants tokens.length ∧ scan lx text m = .error (.ofStore cause) m' := by
  have hscan : scan lx text = tokens.foldlM TokenStream.add {} >>= fun _ =>
      throw (.unterminatedString (text.length - quote.length)) := by
    simp only [scan, Lexer.ofString, hlex, Lexer.offsetOf, String.length_toList]
  have hwrites := writes_addAll hs ht (holds_nil m) tokens
  rw [hscan]
  generalize hadd : tokens.foldlM TokenStream.add {} m = result at hwrites
  cases hwrites with
  | ok hgranted hwrote _ =>
    rw [bind_of_ok hadd]
    exact .inl ⟨hgranted, _, hwrote, rfl⟩
  | @error cause _ m' htaken hgranted hwrote hrefusal =>
    rw [bind_of_error hadd]
    have hfailed : Writes m tokens.length (fun _ (_ : TokenStream) => True)
      (.error (.ofStore cause) m') := .error htaken hgranted hwrote hrefusal
    exact .inr ⟨cause, m', hfailed.not_grants, rfl⟩

theorem failsAt_iff (hs : m.store.Layout) (ht : m.texts.Distinct) {offset taken : Nat} :
    m.FailsAt lx text offset taken ↔
      ∃ tokens quote, lx.lex text.toList = (tokens, some quote) ∧ tokens.length = taken ∧
        offset + quote.length = text.length ∧ m.Grants taken := by
  constructor
  · rintro ⟨m', hscan, hused⟩
    cases hquote : (lx.lex text.toList).2 with
    | none =>
      have hwrites := writes_scan hs ht (Prod.ext rfl hquote)
      rw [hscan] at hwrites
      generalize heq : EvalError.unterminatedString offset = e at hwrites
      cases hwrites with
      | @error cause => exact absurd heq.symm (ofStore_ne_unterminatedString cause offset)
    | some quote =>
      have hlex : lx.lex text.toList = ((lx.lex text.toList).1, some quote) := Prod.ext rfl hquote
      have hle := Lexicon.length_unclosed_le hlex
      rw [String.length_toList] at hle
      rcases scan_unclosed hs ht hlex with
        ⟨hgranted, m'', hwrote, herror⟩ | ⟨cause, m'', -, herror⟩
      · rw [hscan] at herror
        cases herror
        rw [hwrote.used] at hused
        obtain rfl := Nat.add_left_cancel hused
        exact ⟨_, quote, hlex, rfl, by omega, hgranted⟩
      · rw [hscan] at herror
        injection herror with heq
        exact absurd heq.symm (ofStore_ne_unterminatedString cause offset)
  · rintro ⟨tokens, quote, hlex, rfl, hoffset, hgranted⟩
    rcases scan_unclosed hs ht hlex with ⟨-, m', hwrote, herror⟩ | ⟨-, -, hrefused, -⟩
    · rw [← hoffset, Nat.add_sub_cancel] at herror
      exact ⟨m', herror, hwrote.used⟩
    · exact absurd hgranted hrefused

/-- If a text is scanned, then a line behind it gives the tokens that it has on its own, or fails
where it does on its own. The cells may be those of any three memories. -/
theorem scan_lines {lx : Lexicon} (hstyle : lx.comment = .toEndOfLine) {m₁ m₂ m : Memory}
    (hs₁ : m₁.store.Layout) (ht₁ : m₁.texts.Distinct) (hs₂ : m₂.store.Layout)
    (ht₂ : m₂.texts.Distinct) (hs : m.store.Layout) (ht : m.texts.Distinct)
    {a b : String} {tokens : Tokens} (ha : m₁.ScansTo lx a tokens) :
    (∀ tokens', m₂.ScansTo lx b tokens' → m.Grants (tokens.length + tokens'.length) →
      m.ScansTo lx (a ++ "\n" ++ b) (tokens ++ tokens')) ∧
    ∀ offset taken, m₂.FailsAt lx b offset taken → m.Grants (tokens.length + taken) →
      m.FailsAt lx (a ++ "\n" ++ b) (a.length + 1 + offset) (tokens.length + taken) := by
  obtain ⟨hlex, -⟩ := (scansTo_iff hs₁ ht₁).mp ha
  obtain ⟨d, hd⟩ := lx.exists_decomposition a.toList
  rw [hd.lex_eq, Prod.ext_iff] at hlex
  obtain ⟨rfl, hclosed⟩ := hlex
  have hlines : lx.lex (a ++ "\n" ++ b).toList =
      (d.tokens ++ (lx.lex b.toList).1, (lx.lex b.toList).2) := by
    rw [← hd.lex_before_line hstyle hclosed]
    simp
  constructor
  · intro tokens' hb hgranted
    obtain ⟨hlex', -⟩ := (scansTo_iff hs₂ ht₂).mp hb
    rw [hlex'] at hlines
    exact (scansTo_iff hs ht).mpr ⟨hlines, by rwa [List.length_append]⟩
  · intro offset taken hb hgranted
    obtain ⟨tokens', quote, hlex', rfl, hoffset, -⟩ := (failsAt_iff hs₂ ht₂).mp hb
    rw [hlex'] at hlines
    refine (failsAt_iff hs ht).mpr ⟨_, quote, hlines, List.length_append, ?_, hgranted⟩
    simp only [String.length_append]
    have hfeed : "\n".length = 1 := rfl
    omega

/-- The delimiters are a line feed, a backslash and a bracket, which the first two have no part in.
The first text ends in a comment with a quote, and behind it a string is closed or not. -/
theorem scan_lines_comment :
    ∃ tokens tokens' : Tokens,
      (Interpreter.new {}).memory.ScansTo ⟨['\n', '\\', '('], .toEndOfLine, Keyword.ofName?⟩
        "f( x \\ it's" tokens ∧
      (Interpreter.new {}).memory.ScansTo ⟨['\n', '\\', '('], .toEndOfLine, Keyword.ofName?⟩
        ("f( x \\ it's" ++ "\n" ++ "'z'") (tokens ++ tokens') ∧
      (Interpreter.new {}).memory.FailsAt ⟨['\n', '\\', '('], .toEndOfLine, Keyword.ofName?⟩
        ("f( x \\ it's" ++ "\n" ++ "y 'z") (11 + 1 + 2) (tokens.length + 1) := by
  have hready := Interpreter.ready_new {}
  have hs := hready.layout
  have ht := hready.distinct
  have hgrants : ∀ cells ≤ 4, (Interpreter.new {}).memory.Grants cells := by
    intro cells hcells i hi
    have hfour : 4 ≤ Store.indexCount := by decide
    have hindex : 0 + i < Store.indexCount := by omega
    exact Store.refusal?_eq_none_iff.mpr ⟨nofun, hindex, by decide⟩
  have ha : (Interpreter.new {}).memory.ScansTo
      ⟨['\n', '\\', '('], .toEndOfLine, Keyword.ofName?⟩ "f( x \\ it's"
      [.atom ['f'], .delimiter '(', .atom ['x']] := by
    refine (scansTo_iff hs ht).mpr ⟨?_, hgrants _ (by decide)⟩
    rw [Lexicon.lex_of_read (rfl : Lexicon.read _ _ = .lexeme (.atom ['f']) _),
      Lexicon.lex_of_read (rfl : Lexicon.read _ _ = .lexeme (.delimiter '(') _),
      Lexicon.lex_of_read (rfl : Lexicon.read _ _ = .lexeme (.atom ['x']) _),
      Lexicon.lex_of_finished rfl]
  have hclosed : (Interpreter.new {}).memory.ScansTo
      ⟨['\n', '\\', '('], .toEndOfLine, Keyword.ofName?⟩ "'z'" [.string ['z']] := by
    refine (scansTo_iff hs ht).mpr ⟨?_, hgrants _ (by decide)⟩
    rw [Lexicon.lex_of_read (rfl : Lexicon.read _ _ = .lexeme (.string ['z']) _),
      Lexicon.lex_of_finished rfl]
  have hopen : (Interpreter.new {}).memory.FailsAt
      ⟨['\n', '\\', '('], .toEndOfLine, Keyword.ofName?⟩ "y 'z" 2 1 := by
    refine (failsAt_iff hs ht).mpr ⟨[.atom ['y']], ['\'', 'z'], ?_, rfl, rfl, hgrants _ (by decide)⟩
    rw [Lexicon.lex_of_read (rfl : Lexicon.read _ _ = .lexeme (.atom ['y']) _),
      Lexicon.lex_of_unterminated (rfl : Lexicon.read _ _ = .unterminated ['\'', 'z'])]
  exact ⟨_, _, ha, (scan_lines rfl hs ht hs ht hs ht ha).1 _ hclosed (hgrants _ (by decide)),
    (scan_lines rfl hs ht hs ht hs ht ha).2 _ _ hopen (hgrants _ (by decide))⟩

end Memory

end BraceLang
