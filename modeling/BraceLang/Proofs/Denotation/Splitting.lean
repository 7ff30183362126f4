import BraceLang.Proofs.Denotation.Simulation
import BraceLang.Proofs.Evaluation.Nesting
import BraceLang.Proofs.Plain.Evaluation

/-!
# Runs of tokens and parts of token lists

The evaluator takes the parts of a program that it does not evaluate at once by counting delimiters
token by token. On data the same parts are split off by functions on lists. The two give what stands
for the same part, with the same fault if there is none.

* `simulates_formals`, `simulates_body`, `simulates_argument`, `simulates_groups`: the four kinds of
  runs.
-/

namespace BraceLang

open Plain

/-- A run of values and a part of a token list: related results with the same rest, or the same
fault. -/
inductive SplitAgrees {α β : Type} (t : TextTable) (R : α → β → Prop) :
    Except SyntaxFault (α × List Value) → Except FormFault (β × Tokens) → Prop
  | ok {a : α} {b : β} {values : List Value} {tokens : Tokens} : R a b →
      List.Forall₂ t.DenotesToken values tokens →
        SplitAgrees t R (.ok (a, values)) (.ok (b, tokens))
  | error (fault : FormFault) : SplitAgrees t R (.error fault.val) (.error fault)

variable {t : TextTable}

namespace SplitAgrees

variable {σ α β γ : Type} {R : α → β → Prop} {atEnd : σ → SyntaxFault}
  {step : σ → Value → Except SyntaxFault (Progress σ α)} {state : σ} {v : Value}
  {values : List Value}

theorem of_end {fault : FormFault} (h : atEnd state = fault.val) :
    SplitAgrees t R (takeRun atEnd step state []) (.error fault) := by
  simp only [takeRun, h]
  exact .error fault

theorem of_more {state' : σ} {part : Except FormFault (β × Tokens)}
    (hstep : step state v = .ok (.more state'))
    (h : SplitAgrees t R (takeRun atEnd step state' values) part) :
    SplitAgrees t R (takeRun atEnd step state (v :: values)) part := by
  simp only [takeRun, hstep]
  exact h

theorem of_done {a : α} {b : β} {tokens : Tokens} (hstep : step state v = .ok (.done a))
    (hR : R a b)
    (htokens : List.Forall₂ t.DenotesToken values tokens) :
    SplitAgrees t R (takeRun atEnd step state (v :: values)) (.ok (b, tokens)) := by
  simp only [takeRun, hstep]
  exact .ok hR htokens

theorem of_fault {fault : FormFault} (hstep : step state v = .error fault.val) :
    SplitAgrees t R (takeRun atEnd step state (v :: values)) (.error fault) := by
  simp only [takeRun, hstep]
  exact .error fault

theorem map {Q : α → γ → Prop} {result : Except SyntaxFault (α × List Value)}
    {part : Except FormFault (β × Tokens)} {f : β → γ} (h : SplitAgrees t R result part)
    (hQ : ∀ a b, R a b → Q a (f b)) :
    SplitAgrees t Q result (part >>= fun p => pure (f p.1, p.2)) := by
  cases h with
  | ok hR htokens => exact .ok (hQ _ _ hR) htokens
  | error fault => exact .error fault

end SplitAgrees

/-! ## Formal parameters -/

/-- The entries of a run, behind those that it had before. -/
def FormalsRead (t : TextTable) (entries : Array Value) (result : List Value)
    (params : List Param) :
    Prop :=
  ∃ formals : List Formal, result = entries.toList ++ formals.flatMap Closure.entriesOf ∧
    List.Forall₂ t.DenotesFormal formals params

theorem FormalsRead.cons {entries : Array Value} {result : List Value} {params : List Param}
    {mode : BindingMode} {ref : TextRef} {name : List Char} (hname : t.Names ref name)
    (h : FormalsRead t ((entries.push (.mode mode)).push (.atom ref)) result params) :
    FormalsRead t entries result (⟨mode, name⟩ :: params) := by
  obtain ⟨formals, rfl, hformals⟩ := h
  exact ⟨⟨mode, ref⟩ :: formals, by simp [Closure.entriesOf], .cons ⟨rfl, hname⟩ hformals⟩

theorem splitAgrees_formals {values : List Value} {tokens : Tokens}
    (h : List.Forall₂ t.DenotesToken values tokens) (run : FormalRun) :
    SplitAgrees t (FormalsRead t run.entries) (takeRun (fun _ => .endOfText) formalStep run values)
      (splitFormals run.marked tokens) := by
  induction h generalizing run with
  | nil =>
    have hsplit : splitFormals run.marked [] = .error .endOfText := by
      cases run.marked <;> rfl
    rw [hsplit]
    exact .of_end rfl
  | @cons v token values tokens hv htokens ih =>
    obtain ⟨marked, entries⟩ := run
    cases hv with
    | @atom ref name hname =>
      cases marked with
      | false =>
        refine .of_more rfl ?_
        exact SplitAgrees.map (ih ⟨false, (entries.push (.mode .eager)).push (.atom ref)⟩)
          fun _ _ => FormalsRead.cons hname
      | true =>
        refine .of_more rfl ?_
        exact SplitAgrees.map (ih ⟨false, (entries.push (.mode .deferred)).push (.atom ref)⟩)
          fun _ _ => FormalsRead.cons hname
    | @delimiter c =>
      cases marked with
      | false =>
        by_cases hcolon : c = ':'
        · subst hcolon
          exact .of_done rfl ⟨[], by simp, .nil⟩ htokens
        · by_cases hmark : c = '!'
          · subst hmark
            exact .of_more rfl (ih ⟨true, entries⟩)
          · have hsplit : splitFormals false (.delimiter c :: tokens) =
                .error ⟨.formalExpected, rfl⟩ := by
              simp [splitFormals, hcolon, hmark]
            rw [hsplit]
            exact .of_fault (by simp [formalStep, hcolon, hmark])
      | true =>
        have hsplit : splitFormals true (.delimiter c :: tokens) =
            .error ⟨.formalExpected, rfl⟩ := by
          simp [splitFormals]
        rw [hsplit]
        exact .of_fault (by simp [formalStep])
    | string _ => cases marked <;> exact .of_fault rfl
    | number => cases marked <;> exact .of_fault rfl
    | keyword => cases marked <;> exact .of_fault rfl

/-! ## Bodies -/

/-- The tokens of a run, behind those that it had before. -/
def TokensRead (t : TextTable) (before : Array Value) (result : List Value) (tokens : Tokens) :
    Prop :=
  ∃ values, result = before.toList ++ values ∧ List.Forall₂ t.DenotesToken values tokens

theorem TokensRead.cons {before : Array Value} {v : Value} {token : Lexeme} {result : List Value}
    {tokens : Tokens} (hv : t.DenotesToken v token)
    (h : TokensRead t (before.push v) result tokens) :
    TokensRead t before result (token :: tokens) := by
  obtain ⟨values, rfl, hvalues⟩ := h
  exact ⟨v :: values, by simp, .cons hv hvalues⟩

theorem splitAgrees_body {values : List Value} {tokens : Tokens}
    (h : List.Forall₂ t.DenotesToken values tokens) (run : BodyRun) :
    SplitAgrees t (TokensRead t run.tokens)
      (takeRun (fun _ => .unclosedClosure) bodyStep run values)
      (splitBody run.braces tokens) := by
  induction h generalizing run with
  | nil =>
    have hsplit : splitBody run.braces [] = .error ⟨.unclosedClosure, rfl⟩ := by
      cases run.braces <;> rfl
    rw [hsplit]
    exact .of_end rfl
  | @cons v token values tokens hv htokens ih =>
    obtain ⟨braces, before⟩ := run
    have hother : (∀ c, v = .delimiter c → c ≠ '{' ∧ c ≠ '}') →
        bodyStep ⟨braces, before⟩ v = .ok (.more ⟨braces, before.push v⟩) ∧
          splitBody braces (token :: tokens) =
            splitBody braces tokens >>= fun p => pure (token :: p.1, p.2) := by
      intro hc
      cases hv with
      | @delimiter c =>
        obtain ⟨hopen, hclose⟩ := hc c rfl
        constructor
        · simp [bodyStep, hopen, hclose]
        · simp [splitBody, hopen, hclose]
      | _ => cases braces <;> exact ⟨rfl, rfl⟩
    have hmore : ∀ braces', SplitAgrees t (TokensRead t before)
        (takeRun (fun _ => .unclosedClosure) bodyStep ⟨braces', before.push v⟩ values)
        (splitBody braces' tokens >>= fun p => pure (token :: p.1, p.2)) := fun braces' =>
      SplitAgrees.map (ih ⟨braces', before.push v⟩) fun _ _ => TokensRead.cons hv
    by_cases hc : ∀ c, v = .delimiter c → c ≠ '{' ∧ c ≠ '}'
    · obtain ⟨hstep, hsplit⟩ := hother hc
      refine .of_more hstep ?_
      simp only [hsplit]
      exact hmore braces
    · cases hv with
      | @delimiter c =>
        by_cases hopen : c = '{'
        · subst hopen
          cases braces with
          | zero => exact .of_more rfl (hmore 1)
          | succ braces => exact .of_more rfl (hmore (braces + 2))
        · by_cases hclose : c = '}'
          · subst hclose
            cases braces with
            | zero => exact .of_done rfl ⟨[], by simp, .nil⟩ htokens
            | succ braces => exact .of_more rfl (hmore braces)
          · exact absurd (by simp [hopen, hclose]) hc
      | _ => exact absurd (by simp) hc

/-! ## Deferred arguments -/

theorem separator?_eq {v : Value} {token : Lexeme} (hv : t.DenotesToken v token) :
    Separator.ofToken? v = separator? token := by
  cases hv with
  | @delimiter c =>
    by_cases hcomma : c = ','
    · subst hcomma
      rfl
    · by_cases hclose : c = ')'
      · subst hclose
        rfl
      · simp [Separator.ofToken?, separator?, hcomma, hclose]
  | _ => rfl

/-- The tokens and the separator of a run, behind the tokens that it had before. -/
def ArgumentRead (t : TextTable) (before : Array Value) (result : List Value × Separator)
    (argument : Tokens × Separator) : Prop :=
  TokensRead t before result.1 argument.1 ∧ result.2 = argument.2

/-- A separator outside all delimiters ends an argument. -/
def EndsArgument (token : Lexeme) (parens braces : Nat) : Prop :=
  (separator? token).isSome ∧ parens = 0 ∧ braces = 0

theorem splitOpen_of_not_ends {token : Lexeme} {tokens : Tokens} {parens braces : Nat}
    (h : ¬ EndsArgument token parens braces) :
    splitOpen parens braces (token :: tokens) =
      countOpen token parens braces >>= fun counts =>
        splitOpen counts.1 counts.2 tokens >>= fun p => pure ((token :: p.1.1, p.1.2), p.2) := by
  simp only [splitOpen]
  split
  · rename_i hseparator
    exact absurd ⟨by simp [hseparator], rfl, rfl⟩ h
  · rfl

/-- Inside other delimiters a separator is a token like another, but for the parentheses that it
closes. -/
theorem argumentStep_of_separator {c : Char} (hc : (separator? (.delimiter c)).isSome)
    {parens braces : Nat} {before : Array Value} (h : ¬ EndsArgument (.delimiter c) parens braces) :
    argumentStep ⟨parens, braces, before⟩ (.delimiter c) =
      match countOpen (.delimiter c) parens braces with
      | .ok (parens, braces) => .ok (.more ⟨parens, braces, before.push (.delimiter c)⟩)
      | .error fault => .error fault.val := by
  have hcases : c = ',' ∨ c = ')' := by
    by_contra hne
    rw [not_or] at hne
    simp [separator?, hne.1, hne.2] at hc
  have hinside : parens ≠ 0 ∨ braces ≠ 0 := by
    by_contra hne
    rw [not_or, not_not, not_not] at hne
    exact h ⟨hc, hne⟩
  rcases hcases with rfl | rfl
  · cases parens with
    | zero =>
      cases braces with
      | zero => simp at hinside
      | succ braces => simp [argumentStep, Separator.ofToken?, countOpen]
    | succ parens => simp [argumentStep, Separator.ofToken?, countOpen]
  · cases parens with
    | zero =>
      cases braces with
      | zero => simp at hinside
      | succ braces => simp [argumentStep, Separator.ofToken?, countOpen]
    | succ parens => simp [argumentStep, Separator.ofToken?, countOpen]

theorem argumentStep_of_not_ends {v : Value} {token : Lexeme} (hv : t.DenotesToken v token)
    {parens braces : Nat} (before : Array Value) (h : ¬ EndsArgument token parens braces) :
    argumentStep ⟨parens, braces, before⟩ v =
      match countOpen token parens braces with
      | .ok (parens, braces) => .ok (.more ⟨parens, braces, before.push v⟩)
      | .error fault => .error fault.val := by
  cases hv with
  | @delimiter c =>
    by_cases hopen : c = '('
    · subst hopen
      simp [argumentStep, Separator.ofToken?, countOpen]
    · by_cases hbrace : c = '{'
      · subst hbrace
        simp [argumentStep, Separator.ofToken?, countOpen]
      · by_cases hclose : c = '}'
        · subst hclose
          cases braces <;> simp [argumentStep, Separator.ofToken?, countOpen]
        · by_cases hseparator : (separator? (.delimiter c)).isSome
          · exact argumentStep_of_separator hseparator h
          · have hnone : separator? (.delimiter c) = none := by simpa using hseparator
            have hparen : c ≠ ')' := by
              rintro rfl
              cases hnone
            have hstep : Separator.ofToken? (.delimiter c) = none :=
              (separator?_eq (t := t) .delimiter).trans hnone
            simp [argumentStep, hstep, countOpen, hopen, hbrace, hclose, hparen]
  | _ => simp [argumentStep, Separator.ofToken?, countOpen]

theorem splitAgrees_open {values : List Value} {tokens : Tokens}
    (h : List.Forall₂ t.DenotesToken values tokens) (run : ArgumentRun)
    (hne : run.tokens.isEmpty = false) :
    SplitAgrees t (ArgumentRead t run.tokens)
      (takeRun (fun _ => .endInArgument) argumentStep run values)
      (splitOpen run.parens run.braces tokens) := by
  induction h generalizing run with
  | nil => exact .of_end rfl
  | @cons v token values tokens hv htokens ih =>
    obtain ⟨parens, braces, before⟩ := run
    by_cases hends : EndsArgument token parens braces
    · obtain ⟨hseparator, rfl, rfl⟩ := hends
      obtain ⟨separator, hsome⟩ := Option.isSome_iff_exists.mp hseparator
      have hstep : argumentStep ⟨0, 0, before⟩ v = .ok (.done (before.toList, separator)) := by
        simp only at hne
        simp [argumentStep, separator?_eq hv, hsome, hne]
      have hsplit : splitOpen 0 0 (token :: tokens) = .ok (([], separator), tokens) := by
        simp [splitOpen, hsome]
      rw [hsplit]
      exact .of_done hstep ⟨⟨[], by simp, .nil⟩, rfl⟩ htokens
    · have hstep := argumentStep_of_not_ends hv before hends
      simp only
      rw [splitOpen_of_not_ends hends]
      cases hcount : countOpen token parens braces with
      | error fault =>
        rw [hcount] at hstep
        exact .of_fault hstep
      | ok counts =>
        rw [hcount] at hstep
        refine .of_more hstep ?_
        have hnext : (before.push v).isEmpty = false := by simp
        have hrest : SplitAgrees t (ArgumentRead t (before.push v))
            (takeRun (fun _ => .endInArgument) argumentStep
              ⟨counts.1, counts.2, before.push v⟩ values)
            (splitOpen counts.1 counts.2 tokens) := ih ⟨counts.1, counts.2, before.push v⟩ hnext
        exact hrest.map (f := fun p => (token :: p.1, p.2)) (Q := ArgumentRead t before)
          fun _ _ hread => ⟨hread.1.cons hv, hread.2⟩

theorem splitAgrees_argument {values : List Value} {tokens : Tokens}
    (h : List.Forall₂ t.DenotesToken values tokens) :
    SplitAgrees t (ArgumentRead t #[])
      (takeRun (fun _ => .endInArgument) argumentStep {} values) (splitArgument tokens) := by
  cases h with
  | nil => exact .of_end rfl
  | @cons v token values tokens hv htokens =>
    by_cases hends : EndsArgument token 0 0
    · obtain ⟨separator, hsome⟩ := Option.isSome_iff_exists.mp hends.1
      have hstep : argumentStep {} v = .error .missingArgument := by
        simp [argumentStep, separator?_eq hv, hsome]
      have hsplit : splitArgument (token :: tokens) = .error .missingArgument := by
        simp [splitArgument, splitOpen, hsome]
      rw [hsplit]
      exact .of_fault hstep
    · have hstep := argumentStep_of_not_ends hv #[] hends
      unfold splitArgument
      rw [splitOpen_of_not_ends hends]
      cases hcount : countOpen token 0 0 with
      | error fault =>
        rw [hcount] at hstep
        exact .of_fault hstep
      | ok counts =>
        rw [hcount] at hstep
        refine .of_more hstep ?_
        have hnext : (#[].push v : Array Value).isEmpty = false := by simp
        have hrest : SplitAgrees t (ArgumentRead t (#[].push v))
            (takeRun (fun _ => .endInArgument) argumentStep ⟨counts.1, counts.2, #[].push v⟩ values)
            (splitOpen counts.1 counts.2 tokens) :=
          splitAgrees_open htokens ⟨counts.1, counts.2, #[].push v⟩ hnext
        have hall := hrest.map (f := fun p => (token :: p.1, p.2)) (Q := ArgumentRead t #[])
          fun _ _ hread => ⟨hread.1.cons hv, hread.2⟩
        cases hsplit : splitOpen counts.1 counts.2 tokens with
        | ok result =>
          rw [hsplit] at hall
          simp only [bind, Except.bind, hsplit]
          exact hall
        | error fault =>
          rw [hsplit] at hall
          simp only [bind, Except.bind, hsplit]
          exact hall

/-! ## Groups -/

/-- A closing delimiter ends the innermost group, or it is not the one that is due. -/
theorem splitAgrees_leave {values : List Value} {tokens : Tokens} {found closer : Char}
    {outer : List Char} (hrole : (Value.delimiter found).role = .closes found)
    (hsplit : splitGroups (closer :: outer) (.delimiter found :: tokens) =
      if found = closer then splitGroups outer tokens
      else .error ⟨.closerMismatch closer found, rfl⟩)
    (h : SplitAgrees t (fun _ _ => True) (closeGroups values outer) (splitGroups outer tokens)) :
    SplitAgrees t (fun _ _ => True) (closeGroups (.delimiter found :: values) (closer :: outer))
      (splitGroups (closer :: outer) (.delimiter found :: tokens)) := by
  rw [hsplit]
  by_cases hfound : found = closer
  · subst hfound
    have hdue : bracket (found :: outer) (.delimiter found) = some outer := by
      simp [bracket, hrole]
    rw [if_pos rfl, closeGroups_of_bracket (List.cons_ne_nil _ _) hdue]
    exact h
  · rw [if_neg hfound]
    refine SplitAgrees.of_fault ?_
    simp [groupStep_eq, hrole, GroupRun.leave, hfound]

theorem splitAgrees_groups {values : List Value} {tokens : Tokens}
    (h : List.Forall₂ t.DenotesToken values tokens) (due : List Char) :
    SplitAgrees t (fun _ _ => True) (closeGroups values due) (splitGroups due tokens) := by
  induction h generalizing due with
  | nil =>
    cases due with
    | nil => exact .ok trivial .nil
    | cons closer outer => exact .error (.closerExpected closer)
  | @cons v token values tokens hv htokens ih =>
    cases due with
    | nil => exact .ok trivial (.cons hv htokens)
    | cons closer outer =>
      have hpass : ∀ due', bracket (closer :: outer) v = some due' →
          splitGroups (closer :: outer) (token :: tokens) = splitGroups due' tokens →
          SplitAgrees t (fun _ _ => True) (closeGroups (v :: values) (closer :: outer))
            (splitGroups (closer :: outer) (token :: tokens)) := by
        intro due' hdue hsplit
        rw [closeGroups_of_bracket (List.cons_ne_nil _ _) hdue, hsplit]
        exact ih due'
      cases hv with
      | @delimiter c =>
        by_cases hopen : c = '('
        · subst hopen
          exact hpass _ rfl rfl
        · by_cases hbrace : c = '{'
          · subst hbrace
            exact hpass _ rfl rfl
          · by_cases hclose : c = ')'
            · subst hclose
              exact splitAgrees_leave rfl rfl (ih outer)
            · by_cases hend : c = '}'
              · subst hend
                exact splitAgrees_leave rfl rfl (ih outer)
              · have hrole : (Value.delimiter c).role = .plain := by
                  simp [Value.role, hopen, hbrace, hclose, hend]
                exact hpass (closer :: outer) (by simp [bracket, hrole])
                  (by simp [splitGroups, hopen, hbrace, hclose, hend])
      | _ => exact hpass _ rfl rfl

/-! ## Runs at the cursor -/

section Runs

variable {context : EvalContext} {limits : Limits} {st : EvalState} {tokens : Tokens}
  {core : Core Tokens}

theorem simulates_split {σ α β : Type} {R : α → β → Prop} {atEnd : σ → SyntaxFault}
    {step : σ → Value → Except SyntaxFault (Progress σ α)} {state : σ}
    {part : Tokens → Except FormFault (β × Tokens)} (h : Models context limits st tokens core)
    (hsplit : ∀ values, List.Forall₂ context.texts.DenotesToken values tokens →
      SplitAgrees context.texts R (takeRun atEnd step state values) (part tokens)) :
    Simulates context limits st tokens core (EvalM.consume atEnd step state) (split part)
      (fun _ => R) := by
  obtain ⟨values, hchain, htokens⟩ := h.cursor
  have hagrees := hsplit values htokens
  unfold Simulates split
  generalize htake : takeRun atEnd step state values = taken at hagrees
  generalize part tokens = result at hagrees
  cases hagrees with
  | @ok a b rest tokens' hR hrest =>
    obtain ⟨front, cursor, rfl, hreads, hconsume⟩ :=
      EvalM.consume_of_takeRun context h.layout hchain htake
    rw [hconsume]
    exact Agrees.ok (h.with_cursor ⟨rest, hreads.chain_append hchain, hrest⟩) (.refl _) hR
  | error fault =>
    obtain ⟨cursor, hconsume⟩ := EvalM.consume_of_takeRun_error context h.layout hchain htake
    rw [hconsume]
    exact Agrees.error fault.toFault h.used

theorem simulates_formals (h : Models context limits st tokens core) :
    Simulates context limits st tokens core
      (EvalM.consume (fun _ => .endOfText) formalStep {}) (split (splitFormals false))
      (fun _ => FormalsRead context.texts #[]) :=
  simulates_split h fun _ htokens => splitAgrees_formals htokens {}

theorem simulates_body (h : Models context limits st tokens core) :
    Simulates context limits st tokens core
      (EvalM.consume (fun _ => .unclosedClosure) bodyStep {}) (split (splitBody 0))
      (fun _ => TokensRead context.texts #[]) :=
  simulates_split h fun _ htokens => splitAgrees_body htokens {}

theorem simulates_argument (h : Models context limits st tokens core) :
    Simulates context limits st tokens core
      (EvalM.consume (fun _ => .endInArgument) argumentStep {}) (split splitArgument)
      (fun _ => ArgumentRead context.texts #[]) :=
  simulates_split h fun _ htokens => splitAgrees_argument htokens

theorem simulates_groups (h : Models context limits st tokens core) (closer : Char) :
    Simulates context limits st tokens core
      (EvalM.consume (fun run => .closerExpected run.closer) groupStep { closer })
      (split (splitGroups [closer])) (fun _ _ _ => True) :=
  simulates_split h fun _ htokens => splitAgrees_groups htokens [closer]

end Runs

end BraceLang
