import BraceLang.Proofs.Denotation.Simulation
import BraceLang.Proofs.Evaluation.Taking

/-!
# Where a term ends

Whatever the levels of depth, what an evaluation takes for a term is a `Span`. How the tokens of a
call are taken depends on the function that is called, and which operand of a condition is skipped
depends on a number, but of all spans only one can stand at the front of a list: the lists of
arguments that functions with other parameters take begin in the same way and can be told apart at
each separator, and a group that is skipped is skipped as a whole or not at all.

Texts do not matter for this, so that spans of different memories can be compared by their shapes.

* `Span.unique`: of two lists with spans at their fronts that are the same list, the spans are the
  same.
* `EvalM.takes_evaluate_span`: evaluating takes a span.
* `IsTerm.unique`: the same for lists of lexemes.
-/

namespace BraceLang

/-- The tokens of a term. -/
inductive Span : List Value → Prop
  | number {n : Float} : Span [.number n]
  | string {text : TextRef} : Span [.string text]
  | atom {name : TextRef} : Span [.atom name]
  | keyword {op : Keyword} {operands : List (List Value)} :
    operands.length = op.arity → (∀ operand ∈ operands, Span operand) →
      Span (.keyword op :: operands.flatten)
  | closure {tokens : List Value} : tokens ∈ EvalM.closureTails → Span (.delimiter '{' :: tokens)
  | call {callee : List Value} {arguments : List (List Value)} : Span callee →
    (∀ argument ∈ arguments, Span argument) →
      Span (.delimiter '(' :: (callee ++ EvalM.closing arguments))
  | group {opening : Value} {closer : Char} {tokens : List Value} :
    opening.role = .opens closer → IsRun groupStep { closer } tokens () → Span (opening :: tokens)

/-- The set of these token lists. -/
def spans : Language Value := {tokens | Span tokens}

namespace EvalM

/-- A keyword in parentheses is written like the call of a function without arguments. -/
theorem climbs_spans : Climbs fun _ => spans := by
  intro levels tokens h
  cases h with
  | number => exact .number
  | string => exact .string
  | atom => exact .atom
  | keyword h =>
    obtain ⟨operands, rfl, hlength, hmem⟩ := Language.mem_pow.mp h
    exact .keyword hlength hmem
  | closure h => exact .closure h
  | application h =>
    cases h with
    | operation h =>
      obtain ⟨operands, rfl, hlength, hmem⟩ := Language.mem_pow.mp h
      have hkeyword : Span (.keyword _ :: operands.flatten) := .keyword hlength hmem
      have hnone : ∀ argument ∈ ([] : List (List Value)), Span argument := by simp
      exact Span.call hkeyword hnone
    | call hcallee harguments => exact .call hcallee harguments
  | group hopening h => exact .group hopening h

theorem takes_evaluateWithin_span {context : EvalContext} (levels depth : Nat)
    (env : Environment) : Takes context depth (evaluateWithin levels env) spans :=
  takes_evaluateWithin_of_climbs climbs_spans levels depth env

theorem takes_evaluate_span {context : EvalContext} (depth : Nat) (env : Environment) :
    Takes context depth (evaluate env) spans := by
  intro st st' value hst hdepth h
  exact takes_evaluateWithin_span _ depth env hst hdepth h

end EvalM

open EvalM (closureTails closing joined separatorToken)

/-! ## Groups -/

theorem Span.definite {tokens : List Value} (h : Span tokens) : Definite tokens := by
  induction h with
  | number => exact Definite.of_plain (by simp [Value.role])
  | string => exact Definite.of_plain (by simp [Value.role])
  | atom => exact Definite.of_plain (by simp [Value.role])
  | @keyword op operands _ _ ih =>
    have hkeyword : Definite [.keyword op] := Definite.of_plain (by simp [Value.role])
    exact hkeyword.append (Definite.flatten ih)
  | closure h => exact (EvalM.closes_of_closureTails h).definite rfl
  | call _ _ ihcallee iharguments =>
    have hclosing := EvalM.closes_closing iharguments
    exact (Closes.append (List.cons_ne_nil _ _) ihcallee hclosing).definite rfl
  | group hopening h => exact (closes_of_isRun_group h).definite hopening

/-- The tokens of a closure or a call end the group that its opening delimiter begins. -/
theorem Span.closes {opening : Value} {closer : Char} {tokens : List Value}
    (h : Span (opening :: tokens)) (hopening : opening.role = .opens closer) :
    Closes tokens [closer] := by
  cases h with
  | number => cases hopening
  | string => cases hopening
  | atom => cases hopening
  | keyword => cases hopening
  | closure h =>
    cases hopening
    exact EvalM.closes_of_closureTails h
  | call hcallee harguments =>
    cases hopening
    have hclosing := EvalM.closes_closing fun a ha => (harguments a ha).definite
    exact Closes.append (List.cons_ne_nil _ _) hcallee.definite hclosing
  | group hopening' h =>
    rw [hopening'] at hopening
    cases hopening
    exact closes_of_isRun_group h

/-- A group that is skipped ends where its delimiters do. -/
theorem Closes.unique {closer : Char} {tokens tokens' rest rest' : List Value}
    (h : Closes tokens [closer]) (h' : IsRun groupStep { closer } tokens' ())
    (heq : tokens ++ rest = tokens' ++ rest') : tokens = tokens' := by
  have hskip : closeGroups (tokens' ++ rest') [closer] = .ok ((), rest') := h'.takeRun_append _ _
  rw [← heq] at hskip
  rcases h with ⟨-, hpass⟩ | hfault
  · have hrest : closeGroups (tokens ++ rest) ([closer] ++ []) = .ok ((), rest) := hpass [] rest
    rw [List.append_nil, hskip] at hrest
    cases hrest
    exact List.append_cancel_right heq
  · obtain ⟨fault, herror⟩ := hfault [] rest
    rw [List.append_nil, hskip] at herror
    cases herror

/-! ## Terms in a row -/

/-- No other span stands at the front of a list that begins with these tokens. -/
def Settled (tokens : List Value) : Prop :=
  ∀ ⦃tokens' rest rest'⦄, Span tokens' → tokens ++ rest = tokens' ++ rest' → tokens = tokens'

theorem eq_flatten_of_settled {operands operands' : List (List Value)} {rest rest' : List Value}
    (h : ∀ operand ∈ operands, Settled operand) (h' : ∀ operand ∈ operands', Span operand)
    (hlength : operands.length = operands'.length)
    (heq : operands.flatten ++ rest = operands'.flatten ++ rest') : operands = operands' := by
  induction operands generalizing operands' with
  | nil => exact (List.length_eq_zero_iff.mp hlength.symm).symm
  | cons operand operands ih =>
    cases operands' with
    | nil => cases hlength
    | cons operand' operands' =>
      rw [List.forall_mem_cons] at h h'
      simp only [List.flatten_cons, List.append_assoc] at heq
      obtain rfl := h.1 h'.1 heq
      rw [ih h.2 h'.2 (Nat.succ.inj hlength) (List.append_cancel_left heq)]

/-- No argument begins with what ends one. -/
theorem Span.append_ne_separator {tokens : List Value} (h : Span tokens) (separator : Separator)
    (rest behind : List Value) : tokens ++ rest ≠ separatorToken separator :: behind := by
  intro heq
  cases h with
  | group hopening =>
    rw [(List.cons.inj heq).1] at hopening
    cases separator <;> cases hopening
  | _ => cases separator <;> cases heq

theorem eq_joined_of_settled {arguments arguments' : List (List Value)} {rest rest' : List Value}
    (h : ∀ argument ∈ arguments, Settled argument) (h' : ∀ argument ∈ arguments', Span argument)
    (hempty : arguments.isEmpty = arguments'.isEmpty)
    (heq : joined arguments ++ rest = joined arguments' ++ rest') : arguments = arguments' := by
  induction arguments generalizing arguments' with
  | nil => exact (List.isEmpty_iff.mp hempty.symm).symm
  | cons argument arguments ih =>
    cases arguments' with
    | nil => cases hempty
    | cons argument' arguments' =>
      rw [List.forall_mem_cons] at h h'
      simp only [joined, List.append_assoc, List.cons_append] at heq
      obtain rfl := h.1 h'.1 heq
      obtain ⟨hseparator, hrest⟩ := List.cons.inj (List.append_cancel_left heq)
      have hmore : arguments.isEmpty = arguments'.isEmpty := by
        revert hseparator
        cases arguments.isEmpty <;> cases arguments'.isEmpty <;> simp [separatorToken]
      rw [ih h.2 h'.2 hmore hrest]

/-- A call without arguments is not the beginning of one with arguments. -/
theorem eq_closing_of_settled {arguments arguments' : List (List Value)} {rest rest' : List Value}
    (hspans : ∀ argument ∈ arguments, Span argument)
    (h : ∀ argument ∈ arguments, Settled argument) (h' : ∀ argument ∈ arguments', Span argument)
    (heq : closing arguments ++ rest = closing arguments' ++ rest') : arguments = arguments' := by
  cases arguments with
  | nil =>
    cases arguments' with
    | nil => rfl
    | cons argument' arguments' =>
      simp only [closing, joined, List.isEmpty_nil, List.isEmpty_cons, if_true, if_false,
        List.append_assoc, Bool.false_eq_true] at heq
      exact absurd heq.symm ((h' argument' List.mem_cons_self).append_ne_separator _ _ _)
  | cons argument arguments =>
    cases arguments' with
    | nil =>
      simp only [closing, joined, List.isEmpty_nil, List.isEmpty_cons, if_true, if_false,
        List.append_assoc, Bool.false_eq_true] at heq
      exact absurd heq ((hspans argument List.mem_cons_self).append_ne_separator _ _ _)
    | cons argument' arguments' => exact eq_joined_of_settled h h' rfl heq

/-! ## First tokens -/

theorem Span.tail_of_keyword {op : Keyword} {tokens : List Value}
    (h : Span (.keyword op :: tokens)) :
    ∃ operands : List (List Value), operands.length = op.arity ∧
      (∀ operand ∈ operands, Span operand) ∧ tokens = operands.flatten := by
  cases h with
  | keyword hlength hoperands => exact ⟨_, hlength, hoperands, rfl⟩
  | group hopening => cases hopening

theorem Span.tail_of_brace {tokens : List Value} (h : Span (.delimiter '{' :: tokens)) :
    tokens ∈ closureTails ∨ IsRun groupStep { closer := '}' } tokens () := by
  cases h with
  | closure h => exact Or.inl h
  | group hopening h =>
    cases hopening
    exact Or.inr h

theorem Span.tail_of_parenthesis {tokens : List Value} (h : Span (.delimiter '(' :: tokens)) :
    (∃ callee arguments, Span callee ∧ (∀ argument ∈ arguments, Span argument) ∧
      tokens = callee ++ closing arguments) ∨ IsRun groupStep { closer := ')' } tokens () := by
  cases h with
  | call hcallee harguments => exact Or.inl ⟨_, _, hcallee, harguments, rfl⟩
  | group hopening h =>
    cases hopening
    exact Or.inr h

/-- A span at the front of the same list begins with the same token. -/
theorem Settled.cons {first : Value} {tokens : List Value}
    (h : ∀ ⦃tokens' rest rest'⦄, Span (first :: tokens') → tokens ++ rest = tokens' ++ rest' →
      tokens = tokens') : Settled (first :: tokens) := by
  intro tokens' rest rest' h' heq
  cases tokens' with
  | nil => cases h'
  | cons first' tokens' =>
    obtain ⟨rfl, hrest⟩ := List.cons.inj heq
    rw [h h' hrest]

/-! ## Uniqueness -/

theorem Span.settled {tokens : List Value} (h : Span tokens) : Settled tokens := by
  induction h with
  | number =>
    refine Settled.cons fun tokens' rest rest' h' _ => ?_
    cases h' with
    | number => rfl
    | group hopening => cases hopening
  | string =>
    refine Settled.cons fun tokens' rest rest' h' _ => ?_
    cases h' with
    | string => rfl
    | group hopening => cases hopening
  | atom =>
    refine Settled.cons fun tokens' rest rest' h' _ => ?_
    cases h' with
    | atom => rfl
    | group hopening => cases hopening
  | keyword hlength _ ih =>
    refine Settled.cons fun tokens' rest rest' h' heq => ?_
    obtain ⟨operands', hlength', hoperands', rfl⟩ := h'.tail_of_keyword
    rw [eq_flatten_of_settled ih hoperands' (hlength.trans hlength'.symm) heq]
  | closure h =>
    refine Settled.cons fun tokens' rest rest' h' heq => ?_
    rcases h'.tail_of_brace with h' | hgroup
    · obtain ⟨head, formals, body, content, hhead, hbody, rfl⟩ := h
      obtain ⟨head', formals', body', content', hhead', hbody', rfl⟩ := h'
      simp only [List.append_assoc] at heq
      obtain rfl := hhead.unique hhead' heq
      rw [hbody.unique hbody' (List.append_cancel_left heq)]
    · exact (EvalM.closes_of_closureTails h).unique hgroup heq
  | call hcallee harguments ihcallee iharguments =>
    refine Settled.cons fun tokens' rest rest' h' heq => ?_
    rcases h'.tail_of_parenthesis with ⟨callee', arguments', hcallee', harguments', rfl⟩ | hgroup
    · simp only [List.append_assoc] at heq
      obtain rfl := ihcallee hcallee' heq
      have hclosing := List.append_cancel_left heq
      rw [eq_closing_of_settled harguments iharguments harguments' hclosing]
    · exact ((Span.call hcallee harguments).closes rfl).unique hgroup heq
  | group hopening hgroup =>
    exact Settled.cons fun tokens' rest rest' h' heq =>
      ((h'.closes hopening).unique hgroup heq.symm).symm

/-- At the front of a list there is no more than one span. -/
theorem Span.unique {tokens tokens' rest rest' : List Value} (h : Span tokens)
    (h' : Span tokens') (heq : tokens ++ rest = tokens' ++ rest') : tokens = tokens' :=
  h.settled h' heq

/-! ## Shapes -/

/-- A token without its text. -/
def Value.shape : Value → Value
  | .string _ => .string ⟨0, 0⟩
  | .atom _ => .atom ⟨0, 0⟩
  | token => token

theorem Value.role_shape (token : Value) : token.shape.role = token.role := by
  cases token <;> rfl

/-- The formal parameters of a run without their names. -/
def FormalRun.shape (run : FormalRun) : FormalRun :=
  { run with entries := run.entries.map Value.shape }

/-- The tokens of a run without their texts. -/
def BodyRun.shape (run : BodyRun) : BodyRun :=
  { run with tokens := run.tokens.map Value.shape }

theorem IsRun.shape_formals {run : FormalRun} {tokens result : List Value}
    (h : IsRun formalStep run tokens result) :
    IsRun formalStep run.shape (tokens.map Value.shape) (result.map Value.shape) := by
  refine h.map (f := FormalRun.shape) ?_ ?_
  · intro run token run' hstep
    unfold formalStep at hstep
    split at hstep
    · cases hstep
    · rename_i hmarked
      cases hstep
      simp [formalStep, FormalRun.shape, Value.shape, hmarked]
    · cases hstep
      simp [formalStep, FormalRun.shape, Value.shape]
    · cases hstep
  · intro run token result hstep
    unfold formalStep at hstep
    split at hstep
    · rename_i hmarked
      cases hstep
      simp [formalStep, FormalRun.shape, Value.shape, hmarked]
    · cases hstep
    · cases hstep
    · cases hstep

theorem bodyStep_shape (run : BodyRun) (token : Value) :
    bodyStep run.shape token.shape =
      match bodyStep run token with
      | .ok (.more run) => .ok (.more run.shape)
      | .ok (.done content) => .ok (.done (content.map Value.shape))
      | .error fault => .error fault := by
  obtain ⟨braces, tokens⟩ := run
  by_cases hclose : token = .delimiter '}'
  · subst hclose
    cases braces <;> simp [bodyStep, BodyRun.shape, Value.shape]
  · by_cases hopen : token = .delimiter '{'
    · subst hopen
      simp [bodyStep, BodyRun.shape, Value.shape]
    · have hplain : ∀ run : BodyRun, ∀ token : Value, token ≠ .delimiter '}' →
          token ≠ .delimiter '{' →
          bodyStep run token = .ok (.more { run with tokens := run.tokens.push token }) := by
        intro run token hclose hopen
        unfold bodyStep
        split <;> simp_all
      have hshape : ∀ c, token ≠ .delimiter c → token.shape ≠ .delimiter c := by
        intro c hne
        cases token <;> simp_all [Value.shape]
      rw [hplain _ _ hclose hopen, hplain _ _ (hshape _ hclose) (hshape _ hopen)]
      simp [BodyRun.shape]

theorem IsRun.shape_body {run : BodyRun} {tokens result : List Value}
    (h : IsRun bodyStep run tokens result) :
    IsRun bodyStep run.shape (tokens.map Value.shape) (result.map Value.shape) := by
  refine h.map (f := BodyRun.shape) ?_ ?_
  · intro run token run' hstep
    rw [bodyStep_shape, hstep]
  · intro run token result hstep
    rw [bodyStep_shape, hstep]

theorem IsRun.shape_group {run : GroupRun} {tokens : List Value} {u : Unit}
    (h : IsRun groupStep run tokens u) : IsRun groupStep run (tokens.map Value.shape) u := by
  have hstep : ∀ run token, groupStep run token.shape = groupStep run token := by
    intro run token
    rw [groupStep_eq, groupStep_eq, token.role_shape]
  exact h.map (f := id) (r := id) (fun run token _ h => (hstep run token).trans h)
    fun run token _ h => (hstep run token).trans h

theorem closing_shape (arguments : List (List Value)) :
    (closing arguments).map Value.shape = closing (arguments.map (·.map Value.shape)) := by
  have hseparator : ∀ separator, (separatorToken separator).shape = separatorToken separator := by
    intro separator
    cases separator <;> rfl
  have hjoined : ∀ arguments : List (List Value),
      (joined arguments).map Value.shape = joined (arguments.map (·.map Value.shape)) := by
    intro arguments
    induction arguments with
    | nil => rfl
    | cons argument arguments ih => simp [joined, ih, hseparator]
  unfold closing
  rw [List.isEmpty_map]
  split
  · simp [hseparator]
  · exact hjoined arguments

theorem Span.shape {tokens : List Value} (h : Span tokens) : Span (tokens.map Value.shape) := by
  induction h with
  | number => exact .number
  | string => exact .string
  | atom => exact .atom
  | @keyword op operands hlength _ ih =>
    rw [List.map_cons, List.map_flatten]
    refine Span.keyword (by rw [List.length_map, hlength]) fun operand hoperand => ?_
    obtain ⟨operand', hmem, rfl⟩ := List.mem_map.mp hoperand
    exact ih operand' hmem
  | closure h =>
    obtain ⟨head, formals, body, content, hhead, hbody, rfl⟩ := h
    have hhead' : IsRun formalStep {} (head.map Value.shape) (formals.map Value.shape) := by
      simpa [FormalRun.shape] using hhead.shape_formals
    have hbody' : IsRun bodyStep {} (body.map Value.shape) (content.map Value.shape) := by
      simpa [BodyRun.shape] using hbody.shape_body
    rw [List.map_cons, List.map_append]
    exact .closure ⟨_, _, _, _, hhead', hbody', rfl⟩
  | @call callee arguments _ _ ihcallee iharguments =>
    rw [List.map_cons, List.map_append, closing_shape]
    refine Span.call ihcallee fun argument hargument => ?_
    obtain ⟨argument', hmem, rfl⟩ := List.mem_map.mp hargument
    exact iharguments argument' hmem
  | @group opening closer tokens hopening hgroup =>
    exact .group (opening.role_shape.trans hopening) hgroup.shape_group

/-! ## Lexemes -/

/-- A lexeme without its text. -/
def Lexeme.shape : Lexeme → Value
  | .delimiter c => .delimiter c
  | .string _ => .string ⟨0, 0⟩
  | .number n => .number n
  | .keyword k => .keyword k
  | .atom _ => .atom ⟨0, 0⟩

theorem TextTable.DenotesToken.shape_eq {t : TextTable} {v : Value} {token : Lexeme}
    (h : t.DenotesToken v token) : v.shape = token.shape := by
  cases h <;> rfl

theorem map_shape_eq {t : TextTable} {values : List Value} {tokens : Tokens}
    (h : List.Forall₂ t.DenotesToken values tokens) :
    values.map Value.shape = tokens.map Lexeme.shape := by
  induction h with
  | nil => rfl
  | cons hv _ ih => rw [List.map_cons, List.map_cons, hv.shape_eq, ih]

/-- These lexemes are those of a term. -/
def IsTerm (tokens : Tokens) : Prop := Span (tokens.map Lexeme.shape)

theorem Span.isTerm {t : TextTable} {values : List Value} {tokens : Tokens} (h : Span values)
    (ht : List.Forall₂ t.DenotesToken values tokens) : IsTerm tokens := by
  unfold IsTerm
  rw [← map_shape_eq ht]
  exact h.shape

theorem IsTerm.ne_nil {tokens : Tokens} (h : IsTerm tokens) : tokens ≠ [] := by
  rintro rfl
  cases h

/-- At the front of a list there is no more than one term. -/
theorem IsTerm.unique {tokens tokens' rest rest' : Tokens} (h : IsTerm tokens)
    (h' : IsTerm tokens') (heq : tokens ++ rest = tokens' ++ rest') : tokens = tokens' := by
  have hshapes : tokens.map Lexeme.shape ++ rest.map Lexeme.shape =
      tokens'.map Lexeme.shape ++ rest'.map Lexeme.shape := by
    rw [← List.map_append, heq, List.map_append]
  have hlength := congrArg List.length (Span.unique h h' hshapes)
  rw [List.length_map, List.length_map] at hlength
  exact (List.append_inj heq hlength).1

/-! ## Evaluation -/

/-- An evaluation that succeeds takes the tokens of a term and leaves those behind it. -/
theorem evaluate_takes_term {context : EvalContext} {st st' : EvalState} {env : Environment}
    {v : Value} {tokens : Tokens} (hst : st.store.Layout)
    (htokens : (st.memory context).DenotesTokens st.cursor tokens)
    (h : evaluate env context st = .ok v st') :
    ∃ values taken rest, IsTerm taken ∧ tokens = taken ++ rest ∧
      st.store.Reads st.cursor values st'.cursor ∧
      List.Forall₂ context.texts.DenotesToken values taken ∧
      (st'.memory context).DenotesTokens st'.cursor rest := by
  obtain ⟨all, hall, hdenotes⟩ := htokens
  obtain ⟨values, hspan, htaken⟩ := EvalM.takes_evaluate_span st.depth env
    ⟨hst, all, hall⟩ rfl h
  obtain ⟨behind, rfl, hbehind⟩ := htaken.reads.split_of_chain hall
  have hvalues := List.forall₂_take values.length hdenotes
  have hrest := List.forall₂_drop values.length hdenotes
  rw [List.take_left] at hvalues
  rw [List.drop_left] at hrest
  exact ⟨values, _, _, hspan.isTerm hvalues, (List.take_append_drop _ _).symm, htaken.reads,
    hvalues, behind, hbehind.mono htaken.grown, hrest⟩

end BraceLang
