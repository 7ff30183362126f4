import BraceLang.Proofs.Reference.Lowering

/-!
# Lowering of closures and calls

The formal parameters, the body of a closure and the deferred arguments of a call are split off the
tokens where the trees end.

* `Reference.lowers_closure`: closures.
* `Reference.lowers_bindActuals`, `Reference.lowers_settleAll`: the two phases of a call.
* `Reference.lowers_call`: calls with any number of arguments.
-/

namespace BraceLang.Reference

open Plain

variable {limits : Limits}

/-! ## Parts of a token list -/

theorem split_of_ok {α : Type} {part : Tokens → Except FormFault (α × Tokens)} {tokens : Tokens}
    {result : α × Tokens} (h : part tokens = .ok result) : split part tokens = pure result := by
  simp only [split, h]

theorem splitFormals_tokens (params : List Param) (rest : Tokens) :
    splitFormals false (params.flatMap Param.tokens ++ .delimiter ':' :: rest) =
      .ok (params, rest) := by
  induction params with
  | nil => rfl
  | cons p params ih =>
    obtain ⟨mode, name⟩ := p
    rw [List.flatMap_cons, List.append_assoc]
    cases mode <;> simp [Param.tokens, splitFormals, ih, bind, Except.bind, pure, Except.pure]

theorem splitBody_tokens (body : Term) (rest : Tokens) :
    splitBody 0 (body.tokens ++ .delimiter '}' :: rest) = .ok (body.tokens, rest) := by
  have hclose : splitBody 0 (.delimiter '}' :: rest) = .ok ([], rest) := rfl
  have hsplit := body.balanced_tokens.splitBody hclose
  rwa [List.append_nil] at hsplit

theorem splitArgument_tokens (argument : Term) {token : Lexeme} {found : Separator}
    (hfound : separator? token = some found) (rest : Tokens) :
    splitArgument (argument.tokens ++ token :: rest) = .ok ((argument.tokens, found), rest) := by
  have hend : splitOpen 0 0 (token :: rest) = .ok (([], found), rest) := by
    simp [splitOpen, hfound]
  have hsplit := argument.balanced_tokens.splitOpen (fun h => by cases h) hend
  obtain ⟨first, others, htokens, -⟩ := argument.tokens_cases
  rw [List.append_nil] at hsplit
  unfold splitArgument
  rw [hsplit, htokens]

/-! ## Closures -/

theorem lowers_closure (scope : Scope Term) (params : List Param) (body : Term) (rest : Tokens) :
    Lowers limits (fun d => (flat d, rest)) (closure scope params body)
      (Plain.closure (flatScope scope) (params.flatMap Param.tokens ++ .delimiter ':' ::
        (body.tokens ++ .delimiter '}' :: rest))) := by
  refine .readFirst (split_of_ok (splitFormals_tokens params _)) ?_
  refine .readFirst (split_of_ok (splitBody_tokens body rest)) ?_
  refine .bindRead ((lowers_charge _).lift _) fun _ => ?_
  refine .bindRead ((lowers_charge _).lift _) fun _ => ?_
  refine .bindRead ((lowers_charge _).lift _) fun _ => ?_
  exact .pure (Datum.closure params body scope)

/-! ## Actual parameters -/

/-- The tokens of the trees in an actual parameter. -/
def flatActual : Plain.Actual Term → Plain.Actual Tokens
  | .evaluated d => .evaluated (flat d)
  | .captured slot argument => .captured slot argument.tokens

/-- The tokens of the trees in a named actual parameter. -/
def flatEntry (entry : List Char × Plain.Actual Term) : List Char × Plain.Actual Tokens :=
  (entry.1, flatActual entry.2)

theorem bound_flatActual (actual : Plain.Actual Term) :
    (flatActual actual).bound = actual.bound.mapBody Term.tokens := by
  cases actual <;> rfl

/-- Terms are evaluated as their tokens are, in every scope. -/
def LowersTerms (limits : Limits) (eval : Scope Term → Term → TreeM (Datum Term))
    (eval' : Scope Tokens → TokenM (Datum Tokens)) : Prop :=
  ∀ scope, LowersTerm limits (eval scope) (eval' (flatScope scope))

section Calls

variable {eval : Scope Term → Term → TreeM (Datum Term)}
  {eval' : Scope Tokens → TokenM (Datum Tokens)}

theorem lowers_bindActual (he : LowersTerms limits eval eval') (scope : Scope Term) (param : Param)
    (argument : Term) {token : Lexeme} {found : Separator} (hfound : separator? token = some found)
    (rest : Tokens) :
    Lowers limits (fun actual => ((flatActual actual, found), rest))
      (bindActual eval scope param argument)
      (Plain.bindActual eval' (flatScope scope) param (argument.tokens ++ token :: rest)) := by
  unfold bindActual Plain.bindActual
  cases param.mode with
  | eager =>
    refine .bindRead (he scope argument (token :: rest)) fun d => ?_
    have hread : separator (token :: rest) = pure (found, rest) := by simp only [separator, hfound]
    exact .readFirst hread (.pure (Plain.Actual.evaluated d))
  | deferred =>
    have hcapture : Lowers limits (fun _ => ((argument.tokens, found), rest))
        (CoreM.charge argument.tokens.length)
        (captureArgument (argument.tokens ++ token :: rest)) := by
      refine .readFirst (split_of_ok (splitArgument_tokens argument hfound rest)) ?_
      exact .readLast (g := fun _ => (argument.tokens, found)) ((lowers_charge _).lift _)
        fun _ => rfl
    refine .bindRead hcapture fun _ => ?_
    refine .bindRead (lowers_newSlot.lift _) fun slot => ?_
    exact .pure (Plain.Actual.captured slot argument)

theorem lowers_checkCount (params : List Param) (arguments : List Term) {found : Separator}
    (hfound : found = if arguments.isEmpty then .close else .comma) :
    Lowers limits id (checkCount params arguments) (CoreM.checkSeparator params.isEmpty found) := by
  subst hfound
  cases params <;> cases arguments
  · exact .pure ()
  · exact .fail _
  · exact .fail _
  · exact .pure ()

/-- The tokens of arguments up to the parenthesis behind them. -/
def closed (arguments : List Term) (rest : Tokens) : Tokens :=
  joinArguments (arguments.map Term.tokens) ++ .delimiter ')' :: rest

/-- Behind an argument stands a comma if another one comes, and else a parenthesis. -/
theorem closed_cons (argument : Term) (arguments : List Term) (rest : Tokens) :
    ∃ token tail, closed (argument :: arguments) rest = argument.tokens ++ token :: tail ∧
      separator? token = some (if arguments.isEmpty then .close else .comma) ∧
      (arguments = [] → tail = rest) ∧ (arguments ≠ [] → tail = closed arguments rest) := by
  cases arguments with
  | nil => exact ⟨.delimiter ')', rest, rfl, rfl, fun _ => rfl, fun h => absurd rfl h⟩
  | cons next arguments =>
    refine ⟨.delimiter ',', closed (next :: arguments) rest, ?_, rfl, by simp, fun _ => rfl⟩
    simp [closed, joinArguments]

theorem lowers_bindActuals (he : LowersTerms limits eval eval') (scope : Scope Term)
    {params : List Param} {arguments : List Term} (hparams : params ≠ []) (hargs : arguments ≠ [])
    (rest : Tokens) :
    Lowers limits (fun actuals => (actuals.map flatEntry, rest))
      (bindActuals eval scope params arguments)
      (Plain.bindActuals eval' (flatScope scope) params (closed arguments rest)) := by
  induction params generalizing arguments with
  | nil => exact absurd rfl hparams
  | cons param params ih =>
    cases arguments with
    | nil => exact absurd rfl hargs
    | cons argument arguments =>
      obtain ⟨token, tail, htokens, hfound, hlast, hmore⟩ := closed_cons argument arguments rest
      rw [htokens]
      unfold bindActuals Plain.bindActuals
      refine .bindRead (lowers_bindActual he scope param argument hfound tail) fun actual => ?_
      cases params with
      | nil =>
        cases arguments with
        | nil =>
          obtain rfl := hlast rfl
          exact .pure [(param.name, actual)]
        | cons next arguments => exact fun _ => rfl
      | cons other params =>
        cases arguments with
        | nil => exact fun _ => rfl
        | cons next arguments =>
          obtain rfl := hmore (List.cons_ne_nil _ _)
          have hrest := ih (List.cons_ne_nil other params) (List.cons_ne_nil next arguments)
          refine .bindRead ((lowers_checkCount (other :: params) (next :: arguments) rfl).lift _)
            fun _ => ?_
          refine .bindRead hrest fun entries => ?_
          exact .pure ((param.name, actual) :: entries)

/-! ## The new environment -/

theorem lowers_extend (scope : Scope Term) (actuals : List (List Char × Plain.Actual Term)) :
    Lowers limits flatScope (extend scope actuals)
      (extend (flatScope scope) (actuals.map flatEntry)) := by
  have hframe : (actuals.map flatEntry).map (fun entry => (entry.1, entry.2.bound)) =
      Frame.mapBody Term.tokens (actuals.map fun entry => (entry.1, entry.2.bound)) := by
    rw [Frame.mapBody_eq_map, List.map_map, List.map_map]
    refine List.map_congr_left fun entry _ => ?_
    simp [flatEntry, Frame.mapEntry, bound_flatActual]
  rw [extend_eq, extend_eq, List.length_map, hframe]
  exact (lowers_charge _).bind fun _ => (lowers_charge _).bind fun _ => .pure (_ :: scope)

theorem lowers_runBody (he : LowersTerms limits eval eval') (scope : Scope Term) (body : Term) :
    Lowers limits flat (eval scope body) (runBody eval' (flatScope scope) body.tokens) := by
  have hterm := he scope body []
  rw [List.append_nil] at hterm
  have hb : eval scope body = eval scope body >>= pure := (bind_pure _).symm
  unfold runBody
  rw [hb]
  exact hterm.bind fun d => .pure d

theorem lowers_settle (he : LowersTerms limits eval eval') (scope : Scope Term) (name : List Char)
    (actual : Plain.Actual Term) :
    Lowers limits id (settle eval scope actual)
      (Plain.settle eval' (flatScope scope) name (flatActual actual)) := by
  cases actual with
  | evaluated d => exact .pure ()
  | captured slot argument =>
    have hterm := he scope argument []
    rw [List.append_nil] at hterm
    exact hterm.bind fun d => lowers_fill slot d

theorem lowers_settleAll (he : LowersTerms limits eval eval') (scope : Scope Term)
    (actuals : List (List Char × Plain.Actual Term)) :
    Lowers limits id (settleAll eval scope actuals)
      (Plain.settleAll eval' (flatScope scope) (actuals.map flatEntry)) := by
  induction actuals with
  | nil => exact .pure ()
  | cons entry actuals ih =>
    obtain ⟨name, actual⟩ := entry
    exact (lowers_settle he scope name actual).bind fun _ => ih

/-! ## Calls -/

/-- Where a parenthesis stands for a term, the evaluation of tokens fails. -/
def FailsAtClose (limits : Limits) (eval' : Scope Tokens → TokenM (Datum Tokens)) : Prop :=
  ∀ scope rest, Lowers limits (Empty.elim : Empty → Datum Tokens × Tokens)
    (CoreM.nested (CoreM.fail (.notExpected ")"))) (eval' scope (.delimiter ')' :: rest))

theorem lowers_missing (hclose : FailsAtClose limits eval') (scope : Scope Tokens) (param : Param)
    (rest : Tokens) :
    Lowers limits (Empty.elim : Empty → (Plain.Actual Tokens × Separator) × Tokens) (missing param)
      (Plain.bindActual eval' scope param (.delimiter ')' :: rest)) := by
  unfold missing Plain.bindActual
  cases param.mode with
  | eager => exact (hclose scope rest).bindFailing _
  | deferred => exact fun _ => rfl

theorem lowers_call (he : LowersTerms limits eval eval') (hclose : FailsAtClose limits eval')
    (scope : Scope Term) (params : List Param) (body : Term) (defining : Scope Term)
    (arguments : List Term) (rest : Tokens) :
    Lowers limits (fun d => (flat d, rest)) (call eval scope params body defining arguments)
      (Plain.call eval' (flatScope scope) params body.tokens (flatScope defining)
        (closed arguments rest)) := by
  cases params with
  | nil =>
    cases arguments with
    | nil =>
      have hexpect : expect ')' (.delimiter ')' :: rest) = pure ((), rest) := rfl
      exact .readFirst hexpect ((lowers_runBody he defining body).lift rest)
    | cons argument arguments =>
      obtain ⟨token, tail, htokens, -⟩ := closed_cons argument arguments rest
      obtain ⟨first, others, hfirst, hnot⟩ := argument.tokens_cases
      have hexpect : expect ')' (closed (argument :: arguments) rest) =
          CoreM.fail (.closerExpected ')') := by
        rw [htokens, hfirst]
        simp [expect, hnot]
      have hcall : Plain.call eval' (flatScope scope) [] body.tokens (flatScope defining)
          (closed (argument :: arguments) rest) =
            expect ')' (closed (argument :: arguments) rest) >>= fun p =>
              (runBody eval' (flatScope defining) body.tokens).lift p.2 := rfl
      rw [hcall, hexpect]
      exact fun _ => rfl
  | cons param params =>
    cases arguments with
    | nil =>
      have hactual := lowers_missing hclose (flatScope scope) param rest
      have hactuals : Lowers limits (Empty.elim : Empty → _) (missing param)
          (Plain.bindActuals eval' (flatScope scope) (param :: params) (.delimiter ')' :: rest)) :=
        hactual.bindFailing _
      exact (hactuals.bindFailing _).ofFailing
    | cons argument arguments =>
      refine .bindRead (lowers_bindActuals he scope (List.cons_ne_nil param params)
        (List.cons_ne_nil argument arguments) rest) fun actuals => ?_
      refine .bindRead ((lowers_extend defining actuals).lift rest) fun inner => ?_
      refine .bindRead ((lowers_settleAll he inner actuals).lift rest) fun _ => ?_
      exact (lowers_runBody he inner body).lift rest

theorem lowers_apply (he : LowersTerms limits eval eval') (hclose : FailsAtClose limits eval')
    (scope : Scope Term) (arguments : List Term) (function : Datum Term) (rest : Tokens) :
    Lowers limits (fun d => (flat d, rest)) (apply eval scope arguments function)
      ((match flat function with
        | .closure params body defining => Plain.call eval' (flatScope scope) params body defining
        | other => do throw (.notAFunction (← (Plain.render other).lift)) :
          TokenM (Datum Tokens)) (closed arguments rest)) := by
  have hrefuse : ∀ d : Datum Term, Lowers limits (fun d => (flat d, rest))
      (do throw (.notAFunction (← render d)) : TreeM (Datum Term))
      ((do throw (.notAFunction (← (Plain.render (flat d)).lift)) : TokenM (Datum Tokens))
        (closed arguments rest)) := fun d =>
    .bindRead ((lowers_render d).lift _) fun text => .throw _
  cases function with
  | closure params body defining =>
    exact lowers_call he hclose scope params body defining arguments rest
  | number n => exact hrefuse (.number n)
  | string text => exact hrefuse (.string text)
  | list items => exact hrefuse (.list items)

end Calls

end BraceLang.Reference
