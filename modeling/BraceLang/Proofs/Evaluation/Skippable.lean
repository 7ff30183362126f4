import BraceLang.Proofs.Evaluation.Determinacy
import BraceLang.Proofs.Evaluation.Skipping

/-!
# Terms that can be skipped

Skipping finds the end of a term by the arity of its keyword or by a stack of the closing delimiters
that are due. What it accepts is a language of its own: literals and names, keywords with as many
such terms as they take, and groups whose delimiters are properly nested, whatever else stands in
them. A list of tokens has no more than one such term at its front, and skipping passes that one or
fails for the form of the program, if it has the levels for all the terms that it comes to.

Only the operands of keywords are terms inside a term. So the levels that are needed depend on how
keywords stand inside one another, in front of the first place where the form is wrong, and not on
the groups.

* `Skippable`: the tokens of a term.
* `ComesTo`: the levels of the terms that skipping comes to.
* `EvalM.skipsTerm_skipWithin`: how skipping with a number of levels ends.
* `skipTerm_accepts`: what skipping accepts, and when it needs more levels than are left.
-/

namespace BraceLang

/-- A kind of value that texts are read as. -/
def Value.isToken : Value → Bool
  | .number _ | .string _ | .atom _ | .keyword _ | .delimiter _ => true
  | _ => false

/-! ## The language -/

/-- The tokens of a term that can be skipped. -/
inductive Skippable : List Value → Prop
  | number {n : Float} : Skippable [.number n]
  | string {text : TextRef} : Skippable [.string text]
  | atom {name : TextRef} : Skippable [.atom name]
  | keyword {op : Keyword} {operands : List (List Value)} :
    operands.length = op.arity → (∀ operand ∈ operands, Skippable operand) →
      Skippable (.keyword op :: operands.flatten)
  | parentheses {inner : List Value} : Nested inner →
    Skippable (.delimiter '(' :: (inner ++ [.delimiter ')']))
  | braces {inner : List Value} : Nested inner →
    Skippable (.delimiter '{' :: (inner ++ [.delimiter '}']))

/-- So many terms in a row. -/
def SkippableRow (count : Nat) (tokens : List Value) : Prop :=
  ∃ operands : List (List Value), operands.length = count ∧
    (∀ operand ∈ operands, Skippable operand) ∧ tokens = operands.flatten

/-- Where a term stands on the first level, skipping it comes to a term on this level: to the term
itself, or to an operand of its keyword, when those in front of it can be skipped, and from there on
to the terms in it. -/
inductive ComesTo : Nat → List Value → Prop
  | here {tokens : List Value} : ComesTo 1 tokens
  | operand {level : Nat} {op : Keyword} {operands : List (List Value)} {rest : List Value} :
    operands.length < op.arity → (∀ operand ∈ operands, Skippable operand) → ComesTo level rest →
      ComesTo (level + 1) (.keyword op :: (operands.flatten ++ rest))

/-- Where so many terms in a row stand on the first level, skipping them comes to a term on this
level. -/
def RowComesTo (count level : Nat) (tokens : List Value) : Prop :=
  ∃ (operands : List (List Value)) (rest : List Value), operands.length < count ∧
    (∀ operand ∈ operands, Skippable operand) ∧ ComesTo level rest ∧
      tokens = operands.flatten ++ rest

/-! ## Groups -/

/-- The last token of a run closes the outermost group, and the tokens in front of it have opened
and closed the others. -/
theorem nested_of_isRun_group {run : GroupRun} {tokens : List Value} {u : Unit}
    (h : IsRun groupStep run tokens u) :
    ∃ inner closing inside last, tokens = inner ++ [closing] ∧
      run.closer :: run.outer = inside ++ [last] ∧ closing.role = .closes last ∧
      inner.foldlM bracket inside = some [] := by
  induction h with
  | @done run token _ hstep =>
    obtain ⟨due, htoken, hprogress⟩ := bracket_of_groupStep hstep
    cases due with
    | nil =>
      obtain ⟨houter, hrole⟩ := closes_of_bracket_nil htoken
      exact ⟨[], token, [], run.closer, rfl, by rw [houter]; rfl, hrole, rfl⟩
    | cons closer outer => cases hprogress
  | @more run run' token tokens _ hstep _ ih =>
    obtain ⟨inner, closing, inside, last, rfl, hdue, hclosing, hfold⟩ := ih
    obtain ⟨due, htoken, hprogress⟩ := bracket_of_groupStep hstep
    cases due with
    | nil => cases hprogress
    | cons closer outer =>
      cases hprogress
      rw [hdue] at htoken
      obtain ⟨inside', hdue', hinside⟩ := exists_bracket_of_concat (List.cons_ne_nil _ _) htoken
      refine ⟨token :: inner, closing, inside', last, rfl, hdue', hclosing, ?_⟩
      rw [List.foldlM_cons, hinside]
      exact hfold

/-- A group that is skipped ends with the closing delimiter behind properly nested tokens. -/
theorem closeGroups_eq_ok_iff {closer : Char} {tokens rest : List Value} :
    closeGroups tokens [closer] = .ok ((), rest) ↔
      ∃ inner closing, Nested inner ∧ closing.role = .closes closer ∧
        tokens = inner ++ closing :: rest := by
  constructor
  · intro h
    obtain ⟨taken, rfl, hrun⟩ := isRun_of_takeRun h
    obtain ⟨inner, closing, inside, last, rfl, hdue, hclosing, hfold⟩ := nested_of_isRun_group hrun
    obtain ⟨rfl, rfl⟩ : inside = [] ∧ last = closer := by
      cases inside with
      | nil => simpa using hdue.symm
      | cons first inside => simp at hdue
    exact ⟨inner, closing, hfold, hclosing, by simp⟩
  · rintro ⟨inner, closing, hnested, hclosing, rfl⟩
    rw [hnested.closeGroups_append (List.cons_ne_nil _ _)]
    simp [closeGroups, takeRun, groupStep_eq, hclosing, GroupRun.leave]

theorem Skippable.group {opening closing : Value} {closer : Char} {inner : List Value}
    (hopening : opening.role = .opens closer) (hclosing : closing.role = .closes closer)
    (h : Nested inner) : Skippable (opening :: (inner ++ [closing])) := by
  rcases eq_of_role_opens hopening with ⟨rfl, rfl⟩ | ⟨rfl, rfl⟩
  · rcases eq_of_role_closes hclosing with ⟨rfl, -⟩ | ⟨-, h'⟩
    · exact .parentheses h
    · cases h'
  · rcases eq_of_role_closes hclosing with ⟨-, h'⟩ | ⟨rfl, -⟩
    · cases h'
    · exact .braces h

theorem isRun_of_nested {closing : Value} {closer : Char} {inner : List Value}
    (hclosing : closing.role = .closes closer) (h : Nested inner) :
    IsRun groupStep { closer } (inner ++ [closing]) () := by
  have hskip : closeGroups (inner ++ [closing]) [closer] = .ok ((), []) :=
    closeGroups_eq_ok_iff.mpr ⟨inner, closing, h, hclosing, rfl⟩
  obtain ⟨taken, htaken, hrun⟩ := isRun_of_takeRun hskip
  rw [htaken, List.append_nil]
  exact hrun

/-! ## Uniqueness -/

namespace Skippable

variable {tokens tokens' rest rest' : List Value}

theorem span (h : Skippable tokens) : Span tokens := by
  induction h with
  | number => exact .number
  | string => exact .string
  | atom => exact .atom
  | keyword hlength _ ih => exact .keyword hlength ih
  | parentheses hnested => exact .group rfl (isRun_of_nested rfl hnested)
  | braces hnested => exact .group rfl (isRun_of_nested rfl hnested)

/-- At the front of a list there is no more than one term that can be skipped. -/
theorem unique (h : Skippable tokens) (h' : Skippable tokens')
    (heq : tokens ++ rest = tokens' ++ rest') : tokens = tokens' := h.span.unique h'.span heq

theorem tail_of_keyword {op : Keyword} (h : Skippable (.keyword op :: tokens)) :
    SkippableRow op.arity tokens := by
  cases h with
  | keyword hlength hoperands => exact ⟨_, hlength, hoperands, rfl⟩

theorem tail_of_opens {opening : Value} {closer : Char} (hopening : opening.role = .opens closer)
    (h : Skippable (opening :: tokens)) :
    ∃ inner closing, Nested inner ∧ closing.role = .closes closer ∧
      tokens = inner ++ [closing] := by
  cases h with
  | number => cases hopening
  | string => cases hopening
  | atom => cases hopening
  | keyword => cases hopening
  | parentheses hnested =>
    cases hopening
    exact ⟨_, _, hnested, rfl, rfl⟩
  | braces hnested =>
    cases hopening
    exact ⟨_, _, hnested, rfl, rfl⟩

theorem not_nil : ¬ Skippable [] := nofun

end Skippable

/-! ## Rows -/

namespace SkippableRow

variable {count : Nat} {tokens tokens' rest : List Value}

theorem nil : SkippableRow 0 [] := ⟨[], rfl, by simp, rfl⟩

theorem cons (h : Skippable tokens) (h' : SkippableRow count tokens') :
    SkippableRow (count + 1) (tokens ++ tokens') := by
  obtain ⟨operands, rfl, hoperands, rfl⟩ := h'
  exact ⟨tokens :: operands, rfl, List.forall_mem_cons.mpr ⟨h, hoperands⟩, rfl⟩

theorem exists_first (h : SkippableRow (count + 1) tokens) :
    ∃ first behind, Skippable first ∧ SkippableRow count behind ∧ tokens = first ++ behind := by
  obtain ⟨operands, hlength, hoperands, rfl⟩ := h
  cases operands with
  | nil => cases hlength
  | cons first operands =>
    rw [List.forall_mem_cons] at hoperands
    exact ⟨first, operands.flatten, hoperands.1, ⟨operands, Nat.succ.inj hlength, hoperands.2, rfl⟩,
      rfl⟩

end SkippableRow

namespace RowComesTo

variable {count level : Nat} {tokens rest : List Value}

theorem not_zero : ¬ RowComesTo 0 level tokens := by
  rintro ⟨operands, rest, hlength, -⟩
  cases hlength

theorem first (h : ComesTo level tokens) : RowComesTo (count + 1) level tokens :=
  ⟨[], tokens, Nat.succ_pos count, by simp, h, rfl⟩

theorem behind (h : Skippable tokens) (h' : RowComesTo count level rest) :
    RowComesTo (count + 1) level (tokens ++ rest) := by
  obtain ⟨operands, rest, hlength, hoperands, hreaches, rfl⟩ := h'
  refine ⟨tokens :: operands, rest, Nat.succ_lt_succ hlength,
    List.forall_mem_cons.mpr ⟨h, hoperands⟩, hreaches, ?_⟩
  rw [List.flatten_cons, List.append_assoc]

theorem first_or_behind (h : RowComesTo (count + 1) level tokens) :
    ComesTo level tokens ∨
      ∃ first rest, Skippable first ∧ RowComesTo count level rest ∧ tokens = first ++ rest := by
  obtain ⟨operands, rest, hlength, hoperands, hreaches, rfl⟩ := h
  cases operands with
  | nil => exact Or.inl hreaches
  | cons operand operands =>
    rw [List.forall_mem_cons] at hoperands
    refine Or.inr ⟨operand, operands.flatten ++ rest, hoperands.1, ?_, ?_⟩
    · exact ⟨operands, rest, Nat.lt_of_succ_lt_succ hlength, hoperands.2, hreaches, rfl⟩
    · rw [List.flatten_cons, List.append_assoc]

/-- Behind a term that can be skipped, the other terms of the row come next. -/
theorem behind_of_front (h : RowComesTo (count + 1) level (tokens ++ rest))
    (hfront : Skippable tokens) :
    ComesTo level (tokens ++ rest) ∨ RowComesTo count level rest := by
  rcases h.first_or_behind with hhere | ⟨first, behind, hfirst, hbehind, heq⟩
  · exact Or.inl hhere
  · obtain rfl := hfront.unique hfirst heq
    rw [← List.append_cancel_left heq] at hbehind
    exact Or.inr hbehind

end RowComesTo

namespace ComesTo

variable {level : Nat} {tokens : List Value}

theorem of_keyword {op : Keyword} (h : RowComesTo op.arity level tokens) :
    ComesTo (level + 1) (.keyword op :: tokens) := by
  obtain ⟨operands, rest, hlength, hoperands, hreaches, rfl⟩ := h
  exact .operand hlength hoperands hreaches

theorem keyword_cases {op : Keyword} (h : ComesTo level (.keyword op :: tokens)) :
    level = 1 ∨ ∃ level', level = level' + 1 ∧ RowComesTo op.arity level' tokens := by
  cases h with
  | here => exact Or.inl rfl
  | operand hlength hoperands hreaches =>
    exact Or.inr ⟨_, rfl, _, _, hlength, hoperands, hreaches, rfl⟩

/-- Only keywords have terms inside. -/
theorem eq_one (h : ComesTo level tokens) (hfirst : ∀ op rest, tokens ≠ .keyword op :: rest) :
    level = 1 := by
  cases h with
  | here => rfl
  | operand => exact absurd rfl (hfirst _ _)

/-- Every keyword is a token. -/
theorem le_length (h : ComesTo level tokens) : level ≤ tokens.length + 1 := by
  induction h with
  | here => exact Nat.succ_le_succ (Nat.zero_le _)
  | operand _ _ _ ih =>
    rw [List.length_cons, List.length_append]
    omega

end ComesTo

/-! ## How skipping ends -/

namespace EvalM

variable {context : EvalContext} {st : EvalState} {levels : Nat} {tokens : List Value}

/-- How an action with so many levels left ends on the tokens at the cursor, when it skips a front
of them that has a form and comes to terms on some levels. It passes the front, or there is none and
it fails for the form of the program, unless it comes to a term that is too deep. -/
inductive Skipped (form : List Value → Prop) (reached : Nat → Prop) (levels : Nat)
    (context : EvalContext) (st : EvalState) (tokens : List Value) :
    EStateM.Result EvalError EvalState Unit → Prop
  | passes {taken rest : List Value} {cursor : ListRef} : form taken → tokens = taken ++ rest →
    st.store.Reads st.cursor taken cursor → (∀ level, reached level → level ≤ levels) →
      Skipped form reached levels context st tokens (.ok () { st with cursor })
  | refuses {fault : SyntaxFault} {st' : EvalState} :
    (∀ taken rest, form taken → tokens ≠ taken ++ rest) →
      (∀ level, reached level → level ≤ levels) →
        Skipped form reached levels context st tokens (.error (.badSyntax fault) st')
  | tooDeep {level : Nat} {st' : EvalState} : reached level → levels < level →
    Skipped form reached levels context st tokens (.error (.tooDeep context.maxDepth) st')

section Outcome

variable {form : List Value → Prop} {reached : Nat → Prop}
  {result : EStateM.Result EvalError EvalState Unit}

/-- With levels for all the terms that are come to, the form decides. -/
theorem Skipped.passes_or_refuses (h : Skipped form reached levels context st tokens result)
    (henough : ∀ level, reached level → level ≤ levels) :
    (∃ taken cursor, form taken ∧ taken <+: tokens ∧ st.store.Reads st.cursor taken cursor ∧
      result = .ok () { st with cursor }) ∨
    ((¬ ∃ taken, form taken ∧ taken <+: tokens) ∧
      ∃ fault st', result = .error (.badSyntax fault) st') := by
  cases h with
  | @passes taken rest cursor hform htaken hreads _ =>
    exact Or.inl ⟨taken, cursor, hform, ⟨rest, htaken.symm⟩, hreads, rfl⟩
  | @refuses fault st' hnone _ =>
    refine Or.inr ⟨?_, fault, st', rfl⟩
    rintro ⟨taken, hform, rest, hrest⟩
    exact hnone taken rest hform hrest.symm
  | tooDeep hreached hdeep => exact absurd (henough _ hreached) (Nat.not_le.mpr hdeep)

theorem Skipped.tooDeep_iff (h : Skipped form reached levels context st tokens result) :
    (∃ limit st', result = .error (.tooDeep limit) st') ↔
      ∃ level, reached level ∧ levels < level := by
  have hnot (hshallow : ∀ level, reached level → level ≤ levels) :
      ¬ ∃ level, reached level ∧ levels < level := by
    rintro ⟨level, hreached, hdeep⟩
    exact absurd (hshallow level hreached) (Nat.not_le.mpr hdeep)
  cases h with
  | passes _ _ _ hshallow => exact ⟨nofun, fun hdeep => absurd hdeep (hnot hshallow)⟩
  | refuses _ hshallow => exact ⟨nofun, fun hdeep => absurd hdeep (hnot hshallow)⟩
  | tooDeep hreached hdeep => exact ⟨fun _ => ⟨_, hreached, hdeep⟩, fun _ => ⟨_, _, rfl⟩⟩

end Outcome

/-- With so many levels left, the action skips a term wherever tokens stand at the cursor. -/
def SkipsTerm (context : EvalContext) (depth levels : Nat) (skip : EvalM Unit) : Prop :=
  ∀ ⦃st tokens⦄, st.store.Layout → st.store.Chain st.cursor tokens →
    (∀ token ∈ tokens, token.isToken) → st.depth = depth →
    Skipped Skippable (ComesTo · tokens) levels context st tokens (skip context st)

/-- The other terms of a row behind the first one, which has been passed. -/
theorem Skipped.behind {count : Nat} {taken rest : List Value} {cursor : ListRef}
    {result : EStateM.Result EvalError EvalState Unit} (hfirst : Skippable taken)
    (hreads : st.store.Reads st.cursor taken cursor)
    (hshallow : ∀ level, ComesTo level (taken ++ rest) → level ≤ levels)
    (h : Skipped (SkippableRow count) (RowComesTo count · rest) levels context { st with cursor }
      rest result) :
    Skipped (SkippableRow (count + 1)) (RowComesTo (count + 1) · (taken ++ rest)) levels context st
      (taken ++ rest) result := by
  have hlevels : (∀ level, RowComesTo count level rest → level ≤ levels) →
      ∀ level, RowComesTo (count + 1) level (taken ++ rest) → level ≤ levels := by
    intro hrow level hlevel
    rcases hlevel.behind_of_front hfirst with hhere | hbehind
    · exact hshallow level hhere
    · exact hrow level hbehind
  cases h with
  | passes hform htaken hreads' hrow =>
    subst htaken
    exact .passes (.cons hfirst hform) (List.append_assoc _ _ _).symm (hreads.append hreads')
      (hlevels hrow)
  | refuses hnone hrow =>
    refine .refuses (fun taken' rest' hform heq => ?_) (hlevels hrow)
    obtain ⟨other, behind, hother, hbehind, rfl⟩ := hform.exists_first
    rw [List.append_assoc] at heq
    -- a term at the front of the tokens is the one that has been passed
    obtain rfl := hfirst.unique hother heq
    exact hnone behind rest' hbehind (List.append_cancel_left heq)
  | tooDeep hreached hdeep => exact .tooDeep (.behind hfirst hreached) hdeep

/-- Terms in a row. -/
theorem SkipsTerm.times {skip : EvalM Unit} (h : SkipsTerm context st.depth levels skip)
    (hs : st.store.Layout) (hc : st.store.Chain st.cursor tokens)
    (htokens : ∀ token ∈ tokens, token.isToken) (count : Nat) :
    Skipped (SkippableRow count) (RowComesTo count · tokens) levels context st tokens
      (times count skip context st) := by
  induction count generalizing st tokens with
  | zero =>
    exact .passes .nil rfl .nil fun level hlevel => absurd hlevel RowComesTo.not_zero
  | succ count ih =>
    unfold times
    have hfirst := h hs hc htokens rfl
    generalize hrun : skip context st = result at hfirst
    cases hfirst with
    | @passes taken rest cursor hform htaken hreads hshallow =>
      subst htaken
      have hbehind : ({ st with cursor } : EvalState).store.Chain
          ({ st with cursor } : EvalState).cursor rest := hreads.chain_append hc
      rw [reader_bind_of_ok hrun]
      exact .behind hform hreads hshallow <| @ih { st with cursor } rest h hs hbehind
        fun token hmem => htokens token (List.mem_append_right _ hmem)
    | refuses hnone hshallow =>
      rw [reader_bind_of_error hrun]
      refine .refuses (fun taken rest hrow heq => ?_) fun level hlevel => ?_
      · obtain ⟨first, behind, hfirst, -, rfl⟩ := hrow.exists_first
        rw [List.append_assoc] at heq
        exact hnone first _ hfirst heq
      · rcases hlevel.first_or_behind with hhere | ⟨first, rest, hfirst, -, heq⟩
        · exact hshallow level hhere
        · exact absurd heq (hnone first rest hfirst)
    | tooDeep hreached hdeep =>
      rw [reader_bind_of_error hrun]
      exact .tooDeep (.first hreached) hdeep

theorem shallow_of_not_keyword (hfirst : ∀ op rest, tokens ≠ .keyword op :: rest) :
    ∀ level, ComesTo level tokens → level ≤ levels + 1 := by
  intro level hlevel
  rw [hlevel.eq_one hfirst]
  exact Nat.succ_le_succ (Nat.zero_le levels)

/-- A group behind its opening delimiter. -/
theorem skipped_group {opening : Value} {closer : Char} {cursor : ListRef} (hs : st.store.Layout)
    (hopening : opening.role = .opens closer) (hreads : st.store.Reads st.cursor [opening] cursor)
    (hc : st.store.Chain cursor tokens) :
    Skipped Skippable (ComesTo · (opening :: tokens)) (levels + 1) context st (opening :: tokens)
      (consume (fun run => .closerExpected run.closer) groupStep { closer } context
        { st with cursor }) := by
  have hshallow : ∀ level, ComesTo level (opening :: tokens) → level ≤ levels + 1 := by
    refine shallow_of_not_keyword fun op rest heq => ?_
    rw [(List.cons.inj heq).1] at hopening
    cases hopening
  have hs' : ({ st with cursor } : EvalState).store.Layout := hs
  have hc' : ({ st with cursor } : EvalState).store.Chain ({ st with cursor } : EvalState).cursor
    tokens := hc
  cases hrun : closeGroups tokens [closer] with
  | ok result =>
    obtain ⟨⟨⟩, rest⟩ := result
    obtain ⟨taken, cursor', htaken, hreads', hconsume⟩ := consume_of_takeRun context hs' hc' hrun
    obtain ⟨inner, closing, hnested, hclosing, hsplit⟩ := closeGroups_eq_ok_iff.mp hrun
    obtain rfl : taken = inner ++ [closing] := by
      rw [hsplit] at htaken
      exact (List.append_cancel_right (by simpa using htaken)).symm
    have hwhole : opening :: tokens = (opening :: (inner ++ [closing])) ++ rest := by
      rw [htaken]
      rfl
    rw [hconsume]
    exact .passes (.group hopening hclosing hnested) hwhole (hreads.append hreads') hshallow
  | error fault =>
    obtain ⟨cursor', hconsume⟩ := consume_of_takeRun_error context hs' hc' hrun
    rw [hconsume]
    refine .refuses (fun taken rest hform heq => ?_) hshallow
    cases taken with
    | nil => exact Skippable.not_nil hform
    | cons first taken =>
      obtain ⟨rfl, htail⟩ := List.cons.inj heq
      obtain ⟨inner, closing, hnested, hclosing, rfl⟩ := hform.tail_of_opens hopening
      have hok : closeGroups tokens [closer] = .ok ((), rest) :=
        closeGroups_eq_ok_iff.mpr ⟨inner, closing, hnested, hclosing, by rw [htail]; simp⟩
      rw [hok] at hrun
      cases hrun

/-- A delimiter has a text. -/
theorem unexpected_delimiter {α : Type} (c : Char) :
    (unexpected (.delimiter c) : EvalM α) context st =
      .error (.badSyntax (.notExpected (String.ofList (Lexeme.delimiter c).text))) st := by
  have hrender : askMemory (·.render (.delimiter c)) context st =
      .ok (String.ofList (Lexeme.delimiter c).text) st :=
    askMemory_of_ok (Memory.renderToken_eq .delimiter)
  unfold unexpected
  rw [reader_bind_of_ok hrender]
  rfl

/-- The operands of a keyword behind it. -/
theorem Skipped.keyword {op : Keyword} {cursor : ListRef}
    {result : EStateM.Result EvalError EvalState Unit}
    (hreads : st.store.Reads st.cursor [.keyword op] cursor)
    (h : Skipped (SkippableRow op.arity) (RowComesTo op.arity · tokens) levels context
      { st with cursor } tokens result) :
    Skipped Skippable (ComesTo · (.keyword op :: tokens)) (levels + 1) context st
      (.keyword op :: tokens) result := by
  have hshallow : (∀ level, RowComesTo op.arity level tokens → level ≤ levels) →
      ∀ level, ComesTo level (.keyword op :: tokens) → level ≤ levels + 1 := by
    intro hrow level hlevel
    rcases hlevel.keyword_cases with rfl | ⟨level', rfl, hlevel'⟩
    · exact Nat.succ_le_succ (Nat.zero_le levels)
    · exact Nat.succ_le_succ (hrow level' hlevel')
  cases h with
  | passes hform htaken hreads' hrow =>
    obtain ⟨operands, hlength, hoperands, rfl⟩ := hform
    subst htaken
    exact .passes (.keyword hlength hoperands) rfl (hreads.append hreads') (hshallow hrow)
  | refuses hnone hrow =>
    refine .refuses (fun taken rest hform heq => ?_) (hshallow hrow)
    cases taken with
    | nil => exact Skippable.not_nil hform
    | cons first taken =>
      obtain ⟨rfl, htail⟩ := List.cons.inj heq
      exact hnone taken rest hform.tail_of_keyword htail
  | tooDeep hreached hdeep => exact .tooDeep (.of_keyword hreached) (Nat.succ_lt_succ hdeep)

/-- The first token decides. -/
theorem skipped_skipWith {skip : EvalM Unit} (h : SkipsTerm context st.depth levels skip)
    (hs : st.store.Layout) (hc : st.store.Chain st.cursor tokens)
    (htokens : ∀ token ∈ tokens, token.isToken) :
    Skipped Skippable (ComesTo · tokens) (levels + 1) context st tokens
      (skipWith skip context st) := by
  unfold skipWith
  cases tokens with
  | nil =>
    rw [reader_bind_of_error (next_of_nil context hc _)]
    refine .refuses (fun taken rest hform heq => ?_) (shallow_of_not_keyword nofun)
    rw [(List.append_eq_nil_iff.mp heq.symm).1] at hform
    exact Skippable.not_nil hform
  | cons first rest =>
    obtain ⟨cursor, hnext, hreads⟩ := next_of_cons context hc .endOfText
    have hrest : st.store.Chain cursor rest := hreads.chain_of_cons hc
    rw [reader_bind_of_ok hnext]
    cases first with
    | number n => exact .passes .number rfl hreads (shallow_of_not_keyword nofun)
    | string text => exact .passes .string rfl hreads (shallow_of_not_keyword nofun)
    | atom name => exact .passes .atom rfl hreads (shallow_of_not_keyword nofun)
    | keyword op =>
      have hbehind : ∀ token ∈ rest, token.isToken := fun token hmem =>
        htokens token (List.mem_cons_of_mem _ hmem)
      exact .keyword hreads (@SkipsTerm.times _ { st with cursor } _ _ _ h hs hrest hbehind _)
    | delimiter c =>
      by_cases hopen : c = '('
      · subst hopen
        exact skipped_group hs rfl hreads hrest
      · by_cases hbrace : c = '{'
        · subst hbrace
          exact skipped_group hs rfl hreads hrest
        · simp only [Value.delimiter.injEq, hopen, hbrace, imp_self]
          rw [unexpected_delimiter]
          refine .refuses (fun taken tail hform heq => ?_) (shallow_of_not_keyword nofun)
          cases hform with
          | parentheses => exact hopen (Value.delimiter.inj (List.cons.inj heq).1)
          | braces => exact hbrace (Value.delimiter.inj (List.cons.inj heq).1)
          | number | string | atom | keyword => cases (List.cons.inj heq).1
    | absent => simpa [Value.isToken] using htokens .absent List.mem_cons_self
    | list items => simpa [Value.isToken] using htokens (.list items) List.mem_cons_self
    | closure parts => simpa [Value.isToken] using htokens (.closure parts) List.mem_cons_self
    | mode m => simpa [Value.isToken] using htokens (.mode m) List.mem_cons_self
    | deferred slot => simpa [Value.isToken] using htokens (.deferred slot) List.mem_cons_self

/-- One level down. -/
theorem Skipped.nested {action : EvalM Unit} (hdepth : st.depth < context.maxDepth)
    (h : Skipped Skippable (ComesTo · tokens) levels context { st with depth := st.depth + 1 }
      tokens (action context { st with depth := st.depth + 1 })) :
    Skipped Skippable (ComesTo · tokens) levels context st tokens
      (EvalM.nested action context st) := by
  obtain ⟨store, cursor, depth⟩ := st
  have hlevel : ¬ context.maxDepth ≤ depth := Nat.not_le.mpr hdepth
  simp only [EvalM.nested, if_neg hlevel]
  generalize action context ⟨store, cursor, depth + 1⟩ = result at h
  cases h with
  | passes hform htaken hreads hshallow => exact .passes hform htaken hreads hshallow
  | refuses hnone hshallow => exact .refuses hnone hshallow
  | tooDeep hreached hdeep => exact .tooDeep hreached hdeep

/-- Skipping has a level for each level of depth that is left. -/
theorem skipsTerm_skipWithin {depth : Nat} (hlevels : levels = context.maxDepth - depth) :
    SkipsTerm context depth levels (skipWithin levels) := by
  induction levels generalizing depth with
  | zero =>
    intro st tokens hs hc htokens hdepth
    exact .tooDeep .here Nat.zero_lt_one
  | succ levels ih =>
    rintro st tokens hs hc htokens rfl
    have hbelow : SkipsTerm context (st.depth + 1) levels (skipWithin levels) := ih (by omega)
    exact Skipped.nested (by omega) (skipped_skipWith hbelow hs hc htokens)

end EvalM

/-! ## What skipping accepts -/

section Accepts

open EvalM

variable {st : EvalState} {tokens : List Value}

theorem skipped_skipTerm (context : EvalContext) (hs : st.store.Layout)
    (hc : st.store.Chain st.cursor tokens) (htokens : ∀ token ∈ tokens, token.isToken) :
    Skipped Skippable (ComesTo · tokens) (context.maxDepth - st.depth) context st tokens
      (skipTerm context st) :=
  skipsTerm_skipWithin rfl hs hc htokens rfl

/-- Skipping accepts its language. At the front of the tokens there is no more than one term that
can be skipped. With levels for all the terms that it comes to, skipping succeeds exactly if there
is one, and passes it, and otherwise fails for the form of the program. It fails for want of levels
exactly if it comes to a term that is too deep, and there are never more levels of terms than one
for each token and one for the term itself. -/
theorem skipTerm_accepts (context : EvalContext) (hs : st.store.Layout)
    (hc : st.store.Chain st.cursor tokens) (htokens : ∀ token ∈ tokens, token.isToken) :
    (∀ taken taken', Skippable taken → Skippable taken' → taken <+: tokens → taken' <+: tokens →
      taken = taken') ∧
    ((∀ level, ComesTo level tokens → level ≤ context.maxDepth - st.depth) →
      ((∃ st', skipTerm context st = .ok () st') ↔ ∃ taken, Skippable taken ∧ taken <+: tokens) ∧
      (∀ taken, Skippable taken → taken <+: tokens →
        ∃ cursor, st.store.Reads st.cursor taken cursor ∧
          skipTerm context st = .ok () { st with cursor }) ∧
      ((¬ ∃ taken, Skippable taken ∧ taken <+: tokens) →
        ∃ fault st', skipTerm context st = .error (.badSyntax fault) st')) ∧
    ((∃ limit st', skipTerm context st = .error (.tooDeep limit) st') ↔
      ∃ level, ComesTo level tokens ∧ context.maxDepth - st.depth < level) ∧
    (∀ level, ComesTo level tokens → level ≤ tokens.length + 1) := by
  have hunique : ∀ taken taken', Skippable taken → Skippable taken' → taken <+: tokens →
      taken' <+: tokens → taken = taken' := by
    rintro taken taken' h h' ⟨rest, hrest⟩ ⟨rest', hrest'⟩
    exact h.unique h' (hrest.trans hrest'.symm)
  have hskipped := skipped_skipTerm context hs hc htokens
  refine ⟨hunique, fun henough => ?_, hskipped.tooDeep_iff, fun level => ComesTo.le_length⟩
  rcases hskipped.passes_or_refuses henough with
    ⟨taken, cursor, hform, hfront, hreads, hok⟩ | ⟨hnone, fault, st', herror⟩
  · rw [hok]
    refine ⟨⟨fun _ => ⟨taken, hform, hfront⟩, fun _ => ⟨_, rfl⟩⟩, fun taken' hform' hfront' => ?_,
      fun hnone => absurd ⟨taken, hform, hfront⟩ hnone⟩
    obtain rfl := hunique taken taken' hform hform' hfront hfront'
    exact ⟨cursor, hreads, rfl⟩
  · rw [herror]
    refine ⟨⟨nofun, fun hsome => absurd hsome hnone⟩, fun taken hform hfront => ?_,
      fun _ => ⟨fault, st', rfl⟩⟩
    exact absurd ⟨taken, hform, hfront⟩ hnone

/-- What stands in a group need not be a term, and what stands behind the last operand is left. With
one level the first operand is too deep. -/
theorem skipTerm_accepts_operands :
    let group : List Value := [.delimiter '(', .keyword .sub, .delimiter ')']
    let term : List Value := .keyword .isNil :: group
    let tokens : List Value := term ++ [.delimiter ')']
    let st : EvalState := ⟨stateOf (Store.ofList tokens (Store.new 8 none)), .chain ⟨4, 0⟩, 0⟩
    (∃ cursor, st.store.Reads st.cursor term cursor ∧
      skipTerm ⟨{}, 6⟩ st = .ok () { st with cursor }) ∧
    ∃ limit st', skipTerm ⟨{}, 1⟩ st = .error (.tooDeep limit) st' := by
  intro group term tokens st
  have hnew := Store.layout_new 8 none fitsBlock
  have hstored : Store.ofList tokens (Store.new 8 none) = .ok (.chain ⟨4, 0⟩) st.store := rfl
  have hs : st.store.Layout := Store.layout_of_ofList hnew hstored
  have hc : st.store.Chain st.cursor tokens := Store.chain_of_ofList hnew hstored
  have htokens : ∀ token ∈ tokens, token.isToken := by decide
  have hgroup : Skippable group := @Skippable.parentheses [.keyword .sub] rfl
  have hterm : Skippable term :=
    @Skippable.keyword .isNil [group] rfl (List.forall_mem_singleton.mpr hgroup)
  have hfront : term <+: tokens := List.prefix_append term _
  have hbelow : ComesTo 2 tokens := @ComesTo.operand 1 .isNil [] _ Nat.one_pos nofun .here
  obtain ⟨-, hform, -, hlength⟩ := skipTerm_accepts ⟨{}, 6⟩ hs hc htokens
  obtain ⟨-, -, hdepth, -⟩ := skipTerm_accepts ⟨{}, 1⟩ hs hc htokens
  obtain ⟨-, hpasses, -⟩ := hform hlength
  exact ⟨hpasses term hterm hfront, hdepth.mpr ⟨2, hbelow, Nat.lt_succ_self 1⟩⟩

end Accepts

end BraceLang
