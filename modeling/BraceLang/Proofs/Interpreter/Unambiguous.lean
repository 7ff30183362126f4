import BraceLang.Proofs.Denotation.Levels
import BraceLang.Proofs.Interpreter.Independence
import BraceLang.Proofs.Plain.Literals
import BraceLang.Proofs.Token.Decomposition

/-!
# The text of a value without closures

Two values without closures that are written with the same text stand for the same datum, in
whatever memories they are: their lists are nested in the same way, their strings have the same
characters, and their numbers are the same. The one condition is that no string has quotes of both
kinds, and it is met by everything that a text is evaluated to, as a string comes from between two
quotes and does not have quotes of that kind.

* `Lexer.quotable_of_next`: the strings that a lexer reads.
* `Invariant.quotable`: a program makes no other strings than those of its tokens.
* `Interpreter.render_unambiguous`: the same text for the same datum only.
-/

namespace BraceLang

/-! ## Strings of a text -/

theorem Lexicon.IsLexeme.quotable {lx : Lexicon} {chars contents rest : List Char}
    (h : lx.IsLexeme chars (.string contents) rest) : Quotable contents := by
  cases h with
  | string hquote _ hcontents =>
    rcases hquote with rfl | rfl
    · exact .inl hcontents
    · exact .inr hcontents
  | word _ _ hmeans => cases hmeans

theorem Decomposition.Of.quotable {lx : Lexicon} {d : Decomposition} {text contents : List Char}
    (h : d.Of lx text) (hmem : .string contents ∈ d.tokens) : Quotable contents := by
  induction h with
  | finished _ => cases hmem
  | unclosed _ _ _ _ => cases hmem
  | lexeme _ hlexeme _ ih =>
    rcases List.mem_cons.mp hmem with hfirst | hmem
    · subst hfirst
      exact hlexeme.quotable
    · exact ih hmem

/-- A lexer reads no string that has quotes of both kinds. -/
theorem Lexer.quotable_of_next {lx : Lexicon} {lexer : Lexer} {contents : List Char}
    (h : (lexer.next lx).1 = .ok (some (.string contents))) : Quotable contents := by
  obtain ⟨d, hd⟩ := lx.exists_decomposition lexer.rest
  have hanswer := hd.answer_eq (rfl : lexer.rest = _) 0
  rw [answer, h, Decomposition.answer] at hanswer
  split at hanswer
  · rename_i token htoken
    cases hanswer
    exact hd.quotable (List.mem_of_getElem? htoken)
  · split at hanswer <;> cases hanswer

/-! ## Strings of a program -/

/-- The strings of values and of tokens do not have quotes of both kinds. -/
def Invariant.quotable : Invariant where
  string := Quotable
  closure _ _ _ := True
  tokens tokens := ∀ contents, .string contents ∈ tokens → Quotable contents

theorem Invariant.lawful_quotable : quotable.Lawful 0 where
  mono := fun _ _ => trivial
  suffix := fun h contents hmem => h contents (List.mem_append_right _ hmem)
  string := fun h => h _ List.mem_cons_self
  argument := fun h hsplit contents hmem =>
    h contents ((Plain.isPrefix_of_splitArgument hsplit).subset hmem)
  closure := by
    intro tokens params behind body rest used h hformals hbody _
    rw [Plain.tokens_of_closure hformals hbody] at h
    refine ⟨trivial, fun contents hmem => h contents (List.mem_append_left _ ?_)⟩
    exact (Plain.isInfix_closureTokens params body).subset hmem

theorem Invariant.Holds.isData {I : Invariant} {used : Nat} {d : Datum Tokens}
    {strings : List Char → Prop} (h : I.Holds used d) (hd : d.IsData strings) :
    d.IsData I.string := by
  induction hd with
  | number => exact .number
  | string _ =>
    cases h with
    | string htext => exact .string htext
  | list _ ih =>
    cases h with
    | list hitems => exact .list fun item hmem => ih item hmem (hitems item hmem)

theorem Plain.holds_quotable {lx : Lexicon} {text : String} {limits : Limits} {d : Datum Tokens}
    {core : Core Tokens} (h : evalText lx text limits {} = .ok d core) :
    Invariant.quotable.Holds core.used d := by
  obtain ⟨tokens, hlex, -, heval⟩ := evalText_eq_ok_iff.mp h
  obtain ⟨decomposition, hd⟩ := lx.exists_decomposition text.toList
  obtain ⟨rfl, -⟩ := Prod.mk.inj (hd.lex_eq.symm.trans hlex)
  exact Invariant.holds_of_evaluate Invariant.lawful_quotable (Nat.zero_le _)
    (fun contents hmem => hd.quotable hmem) heval

/-! ## Values of a text -/

namespace Interpreter

/-- The text of the datum that an evaluation on data gives, unless there is a closure in it. -/
def dataText? : EStateM.Result Fault (Core Tokens) (Datum Tokens) → Option String
  | .ok d _ => if d.IsData (fun _ => True) then some (String.ofList d.brief) else none
  | .error _ _ => none

theorem exists_data {config : Config} {text written : String}
    (h : dataText? (Plain.evalText config.lexicon text config.limits {}) = some written) :
    ∃ v i d, evalText text (new config) = .ok v i ∧ i.memory.Denotes v d ∧
      d.IsData (fun _ => True) ∧ String.ofList d.brief = written := by
  have hagrees := agrees_evalText (ready_new config) text
  generalize Plain.evalText config.lexicon text config.limits {} = result' at h hagrees
  generalize evalText text (new config) = result at hagrees ⊢
  cases hagrees with
  | @ok v d i core _ hv =>
    have hd : d.IsData fun _ => True := by
      by_contra hnot
      simp [dataText?, hnot] at h
    exact ⟨v, i, d, rfl, hv, hd, by simpa [dataText?, hd] using h⟩
  | error _ _ => cases h

/-- Two values of numbers, lists and strings without quotes of both kinds, nested to any depth, are
written, and with the same text if and only if they stand for the same datum. A lexer reads only
such strings, and so the value of any text is one of these unless there is a closure in it. -/
theorem render_unambiguous :
    (∀ {m m' : Memory} {v w : Value} {d e : Datum Tokens} {depth depth' : Nat},
      m.store.Layout → m'.store.Layout → m.DenotesWithin depth v d → m'.DenotesWithin depth' w e →
      d.IsData Quotable → e.IsData Quotable →
      (∃ text, m.render v = .ok text) ∧ (m.render v = m'.render w ↔ d = e)) ∧
    (∀ {lx : Lexicon} {lexer : Lexer} {contents : List Char},
      (lexer.next lx).1 = .ok (some (.string contents)) → Quotable contents) ∧
    ∀ {config : Config} {earlier : List Call} {text : String} {v : Value} {i : Interpreter},
      evalText text ((new config).after earlier) = .ok v i →
      i.memory.store.Layout ∧
        ∃ d, i.memory.Denotes v d ∧ (d.IsData (fun _ => True) → d.IsData Quotable) := by
  refine ⟨?_, Lexer.quotable_of_next, ?_⟩
  · intro m m' v w d e depth depth' hs hs' hv hw hd he
    have hrender := Memory.render_data hs hd (hv.denotes_data hs hd)
    have hrender' := Memory.render_data hs' he (hw.denotes_data hs' he)
    refine ⟨⟨_, hrender⟩, ?_⟩
    rw [hrender, hrender']
    constructor
    · intro heq
      exact Datum.brief_injective hd he (String.ofList_injective (Except.ok.inj heq))
    · rintro rfl
      rfl
  · intro config earlier text v i hvalue
    have hagrees := agrees_evalText ((ready_new config).after earlier) text
    rw [hvalue] at hagrees
    generalize hplain : Plain.evalText config.lexicon text config.limits {} = result at hagrees
    cases hagrees with
    | ok hfits hv =>
      exact ⟨hfits.memory.layout, _, hv, (Plain.holds_quotable hplain).isData⟩

/-- A list in which a string looks like a list, once with a number of the text and once with a
number that is calculated. -/
theorem render_unambiguous_quotient :
    ∃ v w i j d e, evalText "PUSH '[\"a\"]' PUSH PUSH 1 NIL NIL" (new {}) = .ok v i ∧
      evalText "PUSH '[\"a\"]' PUSH PUSH DIV 2 2 NIL NIL" (new {}) = .ok w j ∧
      i.memory.Denotes v d ∧ j.memory.Denotes w e ∧
      i.memory.render v = .ok "['[\"a\"]', [1]]" ∧ d = e := by
  obtain ⟨hwritten, -, hvalues⟩ := render_unambiguous
  obtain ⟨v, i, d, hvalue, hv, hd, hbrief⟩ := exists_data (by decide +kernel :
    dataText? (Plain.evalText ({} : Config).lexicon "PUSH '[\"a\"]' PUSH PUSH 1 NIL NIL"
      ({} : Config).limits {}) = some "['[\"a\"]', [1]]")
  obtain ⟨w, j, e, hvalue', hw, he, hbrief'⟩ := exists_data (by decide +kernel :
    dataText? (Plain.evalText ({} : Config).lexicon "PUSH '[\"a\"]' PUSH PUSH DIV 2 2 NIL NIL"
      ({} : Config).limits {}) = some "['[\"a\"]', [1]]")
  obtain ⟨hs, d', hv', hquotable⟩ := @hvalues {} [] _ _ _ hvalue
  obtain ⟨hs', e', hw', hquotable'⟩ := @hvalues {} [] _ _ _ hvalue'
  obtain rfl := hv.data_unique hd hv'
  obtain rfl := hw.data_unique he hw'
  have hrender := hbrief ▸ Memory.render_data hs hd hv
  have hrender' := hbrief' ▸ Memory.render_data hs' he hw
  exact ⟨v, w, i, j, d, e, hvalue, hvalue', hv, hw, hrender,
    (hwritten hs hs' hv hw (hquotable hd) (hquotable' he)).2.mp (hrender.trans hrender'.symm)⟩

end Interpreter

end BraceLang
