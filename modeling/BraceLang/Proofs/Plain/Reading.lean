import BraceLang.Proofs.Decimal.Printing
import BraceLang.Proofs.Plain.Datum
import Mathlib.Data.List.TakeWhile

/-!
# Reading printed tokens

Tokens that were read from a text can be printed and read again. A word is read up to the first
character that is not part of a word, which is why the printer puts a space between words and may
leave it out next to a delimiter. A string was read between two equal quotes, so that it cannot
have quotes of both kinds, and one kind is left to print it with.

* `Lexicon.Standard`: the default delimiters and the keywords of the language.
* `Lexicon.Reads`: the tokens that can be printed and read again.
* `Lexicon.reads_of_mem_lex`: the tokens of a text are of that kind.
* `Lexicon.lex_text_append`: a printed token is read again, whatever stands behind it.
* `Lexicon.lex_spaced_append`: so is a printed token list.
-/

namespace BraceLang

namespace Lexicon

/-- The default delimiters and the keywords of the language. Comments may have either style. -/
structure Standard (lx : Lexicon) : Prop where
  delimiters : lx.delimiters = ({} : Config).delimiters.toList
  keyword? : lx.keyword? = Keyword.ofName?

/-- A text that is read as one word. -/
structure IsWord (lx : Lexicon) (word : List Char) : Prop where
  start : ∃ c rest, word = c :: rest ∧ c ≠ '\'' ∧ c ≠ '"'
  inside : ∀ c ∈ word, lx.inWord c = true

/-- No word goes on into the text. -/
def Parted (lx : Lexicon) (text : List Char) : Prop := ∀ c ∈ text.head?, lx.inWord c = false

/-- A token that can be printed and read again. -/
inductive Reads (lx : Lexicon) : Lexeme → Prop
  | delimiter {c : Char} : c ∈ lx.delimiters → Reads lx (.delimiter c)
  | string {contents : List Char} : ¬ ('\'' ∈ contents ∧ '"' ∈ contents) →
    Reads lx (.string contents)
  | word {token : Lexeme} : lx.IsWord token.text → lx.classify token.text = token → Reads lx token

variable {lx : Lexicon}

/-! ## Gaps and words -/

theorem dropGap_cons (style : CommentStyle) {c : Char} (hblank : isBlank c = false)
    (hcomment : c ≠ '\\') (rest : List Char) : dropGap style false (c :: rest) = c :: rest := by
  simp [dropGap, hblank, hcomment]

/-- Behind a gap there is neither white space nor a comment. -/
theorem not_gap_of_dropGap {style : CommentStyle} {inside : Bool} {text rest : List Char} {c : Char}
    (h : dropGap style inside text = c :: rest) : isBlank c = false ∧ c ≠ '\\' := by
  induction text generalizing inside with
  | nil => cases inside <;> cases h
  | cons d text ih =>
    cases inside with
    | true => exact ih h
    | false =>
      unfold dropGap at h
      split at h
      · exact ih h
      · rename_i hblank
        split at h
        · cases style with
          | toEndOfLine => exact ih h
          | toEndOfInput => cases h
        · rename_i hcomment
          cases h
          exact ⟨by simpa using hblank, hcomment⟩

theorem inWord_eq_true_iff {c : Char} :
    lx.inWord c = true ↔ isBlank c = false ∧ c ≠ '\\' ∧ c ∉ lx.delimiters := by
  simp [inWord, and_assoc]

theorem parted_nil : lx.Parted [] := by simp [Parted]

theorem parted_blank (rest : List Char) : lx.Parted (' ' :: rest) := by
  simp [Parted, inWord, isBlank]

theorem parted_delimiter {c : Char} (h : c ∈ lx.delimiters) (rest : List Char) :
    lx.Parted (c :: rest) := by
  simp [Parted, inWord, h]

theorem takeWhile_append_of_parted {word rest : List Char}
    (hword : ∀ c ∈ word, lx.inWord c = true) (hrest : lx.Parted rest) :
    (word ++ rest).takeWhile lx.inWord = word ∧ (word ++ rest).dropWhile lx.inWord = rest := by
  rw [List.takeWhile_append_of_pos hword, List.dropWhile_append_of_pos hword]
  cases rest with
  | nil => simp
  | cons c rest =>
    have hc : lx.inWord c = false := hrest c rfl
    simp [hc]

/-! ## Reading one printed token -/

theorem read_word {word rest : List Char} (hword : lx.IsWord word) (hrest : lx.Parted rest) :
    lx.read (word ++ rest) = .lexeme (lx.classify word) rest := by
  obtain ⟨c, letters, rfl, hsingle, hdouble⟩ := hword.start
  obtain ⟨hblank, hcomment, hdelimiter⟩ := inWord_eq_true_iff.mp (hword.inside c (by simp))
  have hletters : ∀ d ∈ letters, lx.inWord d = true := fun d hd => hword.inside d (by simp [hd])
  obtain ⟨htake, hdrop⟩ := takeWhile_append_of_parted hletters hrest
  simp only [read, List.cons_append, dropGap_cons _ hblank hcomment, readLexeme,
    List.contains_eq_mem, hdelimiter, hsingle, hdouble, decide_false, Bool.false_eq_true, or_self,
    if_false, htake, hdrop]

theorem Standard.not_gap (hlx : lx.Standard) {c : Char} (h : c ∈ lx.delimiters) :
    isBlank c = false ∧ c ≠ '\\' := by
  have hall : (({} : Config).delimiters.toList.all fun d => !isBlank d && d != '\\') = true := by
    decide
  simpa using List.all_eq_true.mp hall c (hlx.delimiters ▸ h)

theorem Standard.not_quote (hlx : lx.Standard) : '\'' ∉ lx.delimiters ∧ '"' ∉ lx.delimiters := by
  rw [hlx.delimiters]
  decide

theorem read_delimiter {c : Char} (h : c ∈ lx.delimiters) (hblank : isBlank c = false)
    (hcomment : c ≠ '\\') (rest : List Char) :
    lx.read (c :: rest) = .lexeme (.delimiter c) rest := by
  simp only [read, dropGap_cons _ hblank hcomment, readLexeme, List.contains_eq_mem, h,
    decide_true, if_true]

theorem Standard.read_delimiter (hlx : lx.Standard) {c : Char} (h : c ∈ lx.delimiters)
    (rest : List Char) : lx.read (c :: rest) = .lexeme (.delimiter c) rest :=
  Lexicon.read_delimiter h (hlx.not_gap h).1 (hlx.not_gap h).2 rest

/-- A string is read up to the first quote of the kind that it starts with. -/
theorem read_quote {quote : Char} (hquote : quote = '\'' ∨ quote = '"')
    (hdelimiter : quote ∉ lx.delimiters) {contents : List Char} (h : quote ∉ contents)
    (rest : List Char) :
    lx.read (quote :: contents ++ quote :: rest) = .lexeme (.string contents) rest := by
  have hgap : isBlank quote = false ∧ quote ≠ '\\' := by
    rcases hquote with rfl | rfl <;> decide
  have hinside : ∀ c ∈ contents, (c != quote) = true := by
    intro c hc
    simp only [bne_iff_ne]
    rintro rfl
    exact h hc
  simp only [read, List.cons_append, dropGap_cons _ hgap.1 hgap.2, readLexeme,
    List.contains_eq_mem, hdelimiter, decide_false, Bool.false_eq_true, if_false, if_pos hquote,
    List.takeWhile_append_of_pos hinside, List.dropWhile_append_of_pos hinside,
    List.takeWhile_cons, List.dropWhile_cons, bne_self_eq_false, List.append_nil]

theorem read_string (hlx : lx.Standard) {contents : List Char}
    (h : ¬ ('\'' ∈ contents ∧ '"' ∈ contents)) (rest : List Char) :
    lx.read (Memory.quoted contents ++ rest) = .lexeme (.string contents) rest := by
  unfold Memory.quoted
  by_cases hdouble : '"' ∈ contents
  · have hsingle : '\'' ∉ contents := fun hsingle => h ⟨hsingle, hdouble⟩
    simpa [hdouble] using read_quote (.inl rfl) hlx.not_quote.1 hsingle rest
  · simpa [hdouble] using read_quote (.inr rfl) hlx.not_quote.2 hdouble rest

/-- A printed token is what is read first, if no word goes on behind it or the token is a
delimiter that needs no space. -/
theorem Reads.read (hlx : lx.Standard) {token : Lexeme} (h : lx.Reads token) {rest : List Char}
    (hrest : token.opens = false → lx.Parted rest) :
    lx.read (token.text ++ rest) = .lexeme token rest := by
  cases h with
  | delimiter hc => exact hlx.read_delimiter hc rest
  | string hcontents => exact read_string hlx hcontents rest
  | word hword hclassify =>
    have hopens : token.opens = false := by
      cases token with
      | delimiter c =>
        rw [classify] at hclassify
        split at hclassify
        · cases hclassify
        · split at hclassify <;> cases hclassify
      | _ => rfl
    rw [read_word hword (hrest hopens), hclassify]

/-! ## The words of tokens -/

/-- A character that can stand anywhere in a word, with the default delimiters. -/
def isPlain (c : Char) : Bool :=
  !isBlank c && c != '\\' && c != '\'' && c != '"' && !({} : Config).delimiters.toList.contains c

theorem Standard.isWord (hlx : lx.Standard) {word : List Char} (hne : word ≠ [])
    (h : word.all isPlain = true) : lx.IsWord word := by
  have hplain : ∀ c ∈ word, (isBlank c = false ∧ c ≠ '\\' ∧ c ∉ lx.delimiters) ∧
      c ≠ '\'' ∧ c ≠ '"' := by
    intro c hc
    have := List.all_eq_true.mp h c hc
    simp only [isPlain, Bool.and_eq_true, Bool.not_eq_true', bne_iff_ne, List.contains_eq_mem,
      decide_eq_false_iff_not, ← hlx.delimiters] at this
    obtain ⟨⟨⟨⟨hblank, hcomment⟩, hsingle⟩, hdouble⟩, hdelimiter⟩ := this
    exact ⟨⟨hblank, hcomment, hdelimiter⟩, hsingle, hdouble⟩
  refine ⟨?_, fun c hc => inWord_eq_true_iff.mpr (hplain c hc).1⟩
  obtain ⟨c, rest, rfl⟩ := List.exists_cons_of_ne_nil hne
  exact ⟨c, rest, rfl, (hplain c List.mem_cons_self).2⟩

theorem isPlain_of_isDigit {c : Char} (h : Decimal.isDigit c = true) : isPlain c = true :=
  @Decimal.of_isDigit (fun c => isPlain c = true) (by decide) c h

theorem Standard.isWord_display (hlx : lx.Standard) (x : Float) :
    lx.IsWord (displayNumber x).toList := by
  have hchars : Decimal.numberChars.all isPlain = true := by decide
  obtain ⟨hne, hmem⟩ := displayNumber_chars x
  exact hlx.isWord hne (List.all_eq_true.mpr fun c hc =>
    List.all_eq_true.mp hchars c (hmem c hc))

theorem Standard.isWord_name (hlx : lx.Standard) (k : Keyword) : lx.IsWord k.name.toList := by
  have hall : ∀ k ∈ Keyword.all, k.name.toList ≠ [] ∧ k.name.toList.all isPlain = true := by
    decide
  obtain ⟨hne, hplain⟩ := hall k k.mem_all
  exact hlx.isWord hne hplain

theorem readNumber?_name (k : Keyword) : readNumber? k.name.toList = none := by
  have hall : ∀ k ∈ Keyword.all, (readNumber? k.name.toList).isNone = true := by decide +kernel
  simpa using hall k k.mem_all

/-! ## The tokens of a text -/

theorem reads_number (hlx : lx.Standard) (x : Float) : lx.Reads (.number x) :=
  .word (hlx.isWord_display x) (by rw [Lexeme.text, classify, readNumber?_displayNumber])

theorem reads_keyword (hlx : lx.Standard) (k : Keyword) : lx.Reads (.keyword k) := by
  refine .word (hlx.isWord_name k) ?_
  simp only [Lexeme.text, classify, readNumber?_name, hlx.keyword?, String.ofList_toList,
    Keyword.ofName?_name]

/-- Whether the token is a delimiter, a keyword, or a name that is read as nothing else. -/
def isBare : Lexeme → Bool
  | .delimiter c => ({} : Config).delimiters.toList.contains c
  | .keyword _ => true
  | .atom name => !name.isEmpty && name.all isPlain && (readNumber? name).isNone &&
      (Keyword.ofName? (String.ofList name)).isNone
  | _ => false

theorem reads_of_isBare (hlx : lx.Standard) {token : Lexeme} (h : isBare token = true) :
    lx.Reads token := by
  cases token with
  | delimiter c => exact .delimiter (hlx.delimiters ▸ List.contains_iff_mem.mp h)
  | keyword k => exact reads_keyword hlx k
  | atom name =>
    simp only [isBare, Bool.and_eq_true, Bool.not_eq_true', Option.isNone_iff_eq_none] at h
    obtain ⟨⟨⟨hempty, hplain⟩, hnumber⟩, hkeyword⟩ := h
    have hne : name ≠ [] := by
      rintro rfl
      cases hempty
    refine .word (hlx.isWord hne hplain) ?_
    simp only [Lexeme.text, classify, hnumber, hlx.keyword?, hkeyword]
  | string contents => cases h
  | number x => cases h

/-- What a word is read as can be read again. -/
theorem reads_classify (hlx : lx.Standard) {word : List Char} (hword : lx.IsWord word) :
    lx.Reads (lx.classify word) := by
  cases hclassify : lx.classify word with
  | number x => exact reads_number hlx x
  | keyword k => exact reads_keyword hlx k
  | _ =>
    have hname : lx.classify word = .atom word := by
      unfold classify at hclassify ⊢
      split at hclassify
      · cases hclassify
      · split at hclassify
        · cases hclassify
        · rfl
    rw [← hclassify, hname]
    exact .word hword hname

theorem reads_of_readLexeme (hlx : lx.Standard) {c : Char} {text rest : List Char} {token : Lexeme}
    (hblank : isBlank c = false) (hcomment : c ≠ '\\')
    (h : lx.readLexeme c text = .lexeme token rest) : lx.Reads token := by
  unfold readLexeme at h
  split at h
  · rename_i hdelimiter
    cases h
    exact .delimiter (by simpa using hdelimiter)
  · rename_i hdelimiter
    split at h
    · rename_i hquote
      split at h
      · cases h
      · cases h
        have houtside : c ∉ text.takeWhile (· != c) := by
          intro hmem
          simpa using List.mem_takeWhile_imp hmem
        refine .string fun ⟨hsingle, hdouble⟩ => houtside ?_
        rcases hquote with rfl | rfl
        · exact hsingle
        · exact hdouble
    · rename_i hquote
      cases h
      refine reads_classify hlx ⟨⟨c, _, rfl, by simpa using hquote⟩, fun d hd => ?_⟩
      rcases List.mem_cons.mp hd with rfl | hd
      · exact inWord_eq_true_iff.mpr ⟨hblank, hcomment, by simpa using hdelimiter⟩
      · exact List.mem_takeWhile_imp hd

theorem reads_of_read (hlx : lx.Standard) {text rest : List Char} {token : Lexeme}
    (h : lx.read text = .lexeme token rest) : lx.Reads token := by
  unfold Lexicon.read at h
  split at h
  · cases h
  · rename_i c behind hgap
    obtain ⟨hblank, hcomment⟩ := not_gap_of_dropGap hgap
    exact reads_of_readLexeme hlx hblank hcomment h

theorem lex_of_finished {text : List Char} (h : lx.read text = .finished) :
    lx.lex text = ([], none) := by
  rw [lex]
  split
  · rfl
  all_goals
    rename_i heq
    rw [heq] at h
    cases h

theorem lex_of_unterminated {text quote : List Char} (h : lx.read text = .unterminated quote) :
    lx.lex text = ([], some quote) := by
  rw [lex]
  split <;> rename_i heq <;> rw [h] at heq
  · cases heq
  · cases heq
    rfl
  · cases heq

theorem lex_of_read {text rest : List Char} {token : Lexeme}
    (h : lx.read text = .lexeme token rest) :
    lx.lex text = (token :: (lx.lex rest).1, (lx.lex rest).2) := by
  rw [lex]
  split <;> rename_i heq
  · rw [heq] at h
    cases h
  · rw [heq] at h
    cases h
  · rw [heq] at h
    cases h
    rfl

/-- The lexemes of a text depend on what is read first. -/
theorem lex_congr {text text' : List Char} (h : lx.read text = lx.read text') :
    lx.lex text = lx.lex text' := by
  rw [lex, lex]
  rw [h]

/-- Every token of a text can be printed and read again. -/
theorem reads_of_mem_lex (hlx : lx.Standard) (text : List Char) :
    ∀ token ∈ (lx.lex text).1, lx.Reads token := by
  induction text using lex.induct lx with
  | case1 text hread =>
    rw [lex]
    split <;> rename_i heq <;> rw [heq] at hread <;> cases hread
    simp
  | case2 text quote hread =>
    rw [lex]
    split <;> rename_i heq <;> rw [heq] at hread <;> cases hread
    simp
  | case3 text token rest hread _ _ _ ih =>
    rw [lex_of_read hread]
    intro other hother
    rcases List.mem_cons.mp hother with rfl | hother
    · exact reads_of_read hlx hread
    · exact ih other hother

/-! ## Printed token lists -/

/-- A printed token is read again, whatever stands behind it. -/
theorem lex_text_append (hlx : lx.Standard) {token : Lexeme} (h : lx.Reads token)
    {rest : List Char} (hrest : token.opens = false → lx.Parted rest) :
    lx.lex (token.text ++ rest) = (token :: (lx.lex rest).1, (lx.lex rest).2) :=
  lex_of_read (h.read hlx hrest)

theorem lex_delimiter (hlx : lx.Standard) {c : Char} (h : c ∈ lx.delimiters) (rest : List Char) :
    lx.lex (c :: rest) = (.delimiter c :: (lx.lex rest).1, (lx.lex rest).2) :=
  lex_of_read (hlx.read_delimiter h rest)

theorem read_blank (rest : List Char) : lx.read (' ' :: rest) = lx.read rest := rfl

theorem lex_blank (rest : List Char) : lx.lex (' ' :: rest) = lx.lex rest :=
  lex_congr (read_blank rest)

theorem lex_nil : lx.lex [] = ([], none) := by
  rw [lex]
  rfl

theorem lex_text (hlx : lx.Standard) {token : Lexeme} (h : lx.Reads token) :
    lx.lex token.text = ([token], none) := by
  have htext := lex_text_append hlx h fun _ => parted_nil
  rwa [List.append_nil, lex_nil] at htext

/-- Behind a token that needs a space there is one, or a delimiter, or the end. -/
theorem parted_spaced (hlx : lx.Standard) (tokens : Tokens) {rest : List Char}
    (hrest : lx.Parted rest) : lx.Parted (Lexeme.spaced false tokens ++ rest) := by
  cases tokens with
  | nil => exact hrest
  | cons token tokens =>
    cases hcloses : token.closes with
    | false => simpa [Lexeme.spaced, hcloses] using parted_blank _
    | true =>
      cases token with
      | delimiter c =>
        have hc : c ∈ lx.delimiters := by
          rw [hlx.delimiters]
          simp only [Lexeme.closes, Lexeme.isDelimiter, Bool.or_eq_true, beq_iff_eq] at hcloses
          rcases hcloses with ((rfl | rfl) | rfl) | rfl <;> decide
        simpa [Lexeme.spaced, hcloses, Lexeme.text] using parted_delimiter hc _
      | _ => cases hcloses

/-- A printed token list is read again, whatever stands behind it. -/
theorem lex_spaced_append (hlx : lx.Standard) {tokens : Tokens}
    (h : ∀ token ∈ tokens, lx.Reads token)
    {rest : List Char} (hrest : lx.Parted rest) (glued : Bool) :
    lx.lex (Lexeme.spaced glued tokens ++ rest) = (tokens ++ (lx.lex rest).1, (lx.lex rest).2) := by
  induction tokens generalizing glued with
  | nil => rfl
  | cons token tokens ih =>
    have hparted : token.opens = false →
        lx.Parted (Lexeme.spaced token.opens tokens ++ rest) := by
      intro hopens
      rw [hopens]
      exact parted_spaced hlx tokens hrest
    have htail := ih (fun other hother => h other (List.mem_cons_of_mem _ hother)) token.opens
    have hhead := lex_text_append hlx (h token List.mem_cons_self) hparted
    rw [htail] at hhead
    unfold Lexeme.spaced
    split
    · rw [List.append_assoc, hhead]
      rfl
    · rw [List.append_assoc, List.cons_append, lex_blank, hhead]
      rfl

/-- A printed token list is read again. -/
theorem lex_spaced (hlx : lx.Standard) {tokens : Tokens} (h : ∀ token ∈ tokens, lx.Reads token)
    (glued : Bool) : lx.lex (Lexeme.spaced glued tokens) = (tokens, none) := by
  simpa [lex_nil] using lex_spaced_append hlx h parted_nil glued

theorem lex_spaced_of_isBare (hlx : lx.Standard) {tokens : Tokens}
    (h : tokens.all isBare = true) (glued : Bool) :
    lx.lex (Lexeme.spaced glued tokens) = (tokens, none) :=
  lex_spaced hlx (fun token hmem => reads_of_isBare hlx (List.all_eq_true.mp h token hmem)) glued

end Lexicon

end BraceLang
