import BraceLang.Proofs.Evaluation.Taking
import BraceLang.Proofs.Plain.Due

/-!
# Evaluations that cannot notice what stands behind a term

An evaluation of a term that can be skipped may fail at any point, but it never comes to the tokens
behind the term: as long as a term or a closing delimiter is due, there is a token left to read.

* `Plain.Seals`: an action ends in the same way whatever stands behind the tokens that are due.
* `Plain.Once`: an action reads one term where a term is due. Within a group it reads what is there.
* `Plain.once_evaluateWithin`, `Plain.once_skipWithin`: evaluating and skipping.
* `Plain.SkipsAll.skipWithin`: tokens that are skipped as a term are due where a term is.
-/

namespace BraceLang.Plain

/-! ## Actions -/

variable {α γ : Type}

/-- On tokens that are due the action ends in the same way whatever stands behind them: it succeeds
and leaves tokens that are due then, or it fails. -/
def Seals (dues : List Due) (left : α → List Due) (action : TokenM α) : Prop :=
  ∀ ⦃tokens⦄, Fulfils dues tokens → ∀ limits core,
    (∃ a rest core', Fulfils (left a) rest ∧
      ∀ behind, action (tokens ++ behind) limits core = .ok (a, rest ++ behind) core') ∨
    ∃ fault core', ∀ behind, action (tokens ++ behind) limits core = .error fault core'

namespace Seals

variable {dues below : List Due} {left : α → List Due} {left' : γ → List Due} {action : TokenM α}

theorem pure {a : α} (h : dues = left a) : Seals dues left (Pure.pure a : TokenM α) :=
  fun tokens htokens _ core => Or.inl ⟨a, tokens, core, h ▸ htokens, fun _ => rfl⟩

theorem bind {f : α → TokenM γ} (h : Seals dues left action)
    (hf : ∀ a, Seals (left a) left' (f a)) : Seals dues left' (action >>= f) := by
  intro tokens htokens limits core
  rcases h htokens limits core with ⟨a, rest, core', hrest, hok⟩ | ⟨fault, core', herror⟩
  · have hbind : ∀ behind, (action >>= f) (tokens ++ behind) limits core =
        f a (rest ++ behind) limits core' := fun behind => reader_bind_of_ok (hok behind)
    simp only [hbind]
    exact hf a hrest limits core'
  · exact Or.inr ⟨fault, core', fun behind => reader_bind_of_error (herror behind)⟩

theorem map {f : α → γ} (h : Seals dues left action) (hleft : ∀ a, left a = left' (f a)) :
    Seals dues left' (f <$> action) := by
  rw [← bind_pure_comp]
  exact h.bind fun a => pure (hleft a)

/-- An action that reads nothing. -/
theorem lift (action : CoreM Tokens α) : Seals dues (fun _ => dues) (action.lift : TokenM α) := by
  intro tokens htokens limits core
  cases hrun : action limits core with
  | ok a core' =>
    exact Or.inl ⟨a, tokens, core', htokens, fun behind => reader_bind_of_ok hrun⟩
  | error fault core' => exact Or.inr ⟨fault, core', fun behind => reader_bind_of_error hrun⟩

theorem throw (fault : Fault) : Seals dues left (MonadExcept.throw fault : TokenM α) :=
  fun _ _ _ core => Or.inr ⟨fault, core, fun _ => rfl⟩

theorem fail (fault : FormFault) : Seals dues left (Plain.fail fault : TokenM α) :=
  fun _ _ _ core => Or.inr ⟨fault.toFault, core, fun _ => rfl⟩

theorem mismatch (op : Keyword) (expected : Expectation) (found : String) :
    Seals dues left ((CoreM.mismatch op expected found).lift : TokenM α) :=
  fun _ _ _ core => Or.inr ⟨_, core, fun _ => rfl⟩

theorem tooDeep : Seals dues left (CoreM.tooDeep.lift : TokenM α) :=
  fun _ _ limits core => Or.inr ⟨⟨.tooDeep limits.maxDepth, rfl⟩, core, fun _ => rfl⟩

theorem nested (h : Seals dues left action) : Seals dues left (ReadM.nested action) := by
  intro tokens htokens limits core
  unfold ReadM.nested CoreM.nested
  by_cases hdeep : limits.maxDepth ≤ limits.depth
  · simp only [if_pos hdeep]
    exact Or.inr ⟨⟨.tooDeep limits.maxDepth, rfl⟩, core, fun _ => rfl⟩
  · simp only [if_neg hdeep]
    exact h htokens limits.deeper core

/-- The next token decides what is due. -/
theorem next {first : Due} {atEnd : FormFault} {f : Lexeme → TokenM α}
    (h : ∀ token dues', due (first :: below) token = some dues' → Seals dues' left (f token)) :
    Seals (first :: below) left (next atEnd >>= f) := by
  intro tokens htokens limits core
  obtain ⟨token, rest, dues', rfl, hdue, hrest⟩ := htokens.exists_cons
  exact h token dues' hdue hrest limits core

theorem expect : Seals (.closer ')' :: below) (fun _ => below) (Plain.expect ')') := by
  intro tokens htokens limits core
  obtain ⟨token, rest, dues', rfl, hdue, hrest⟩ := htokens.exists_cons
  by_cases htoken : token = .delimiter ')'
  · subst htoken
    cases hdue
    exact Or.inl ⟨(), rest, core, hrest, fun behind => rfl⟩
  · have hother : token.isDelimiter ')' = false := by
      cases token with
      | delimiter c => simpa [Lexeme.isDelimiter] using htoken
      | _ => rfl
    refine Or.inr ⟨(FormFault.closerExpected ')').toFault, core, fun behind => ?_⟩
    simp only [List.cons_append, Plain.expect, hother]
    rfl

end Seals

theorem seals_separator {below : List Due} :
    Seals (.closer ')' :: below) (behindSeparator below) separator := by
  intro tokens htokens limits core
  obtain ⟨token, rest, dues', rfl, hdue, hrest⟩ := htokens.exists_cons
  cases hfound : separator? token with
  | some found =>
    rw [eq_of_separator? hfound hdue] at hrest
    refine Or.inl ⟨found, rest, core, hrest, fun behind => ?_⟩
    simp only [List.cons_append, separator, hfound]
    rfl
  | none =>
    refine Or.inr ⟨FormFault.toFault ⟨.separatorExpected, rfl⟩, core, fun behind => ?_⟩
    simp only [List.cons_append, separator, hfound]
    rfl

/-! ## Parts that are split off -/

theorem seals_split {dues : List Due} {left : α → List Due}
    {part : Tokens → Except FormFault (α × Tokens)}
    (h : ∀ ⦃tokens⦄, Fulfils dues tokens →
      (∃ a rest, Fulfils (left a) rest ∧
        ∀ behind, part (tokens ++ behind) = .ok (a, rest ++ behind)) ∨
      ∃ fault, ∀ behind, part (tokens ++ behind) = .error fault) :
    Seals dues left (split part) := by
  intro tokens htokens limits core
  rcases h htokens with ⟨a, rest, hrest, hok⟩ | ⟨fault, herror⟩
  · refine Or.inl ⟨a, rest, core, hrest, fun behind => ?_⟩
    simp only [split, hok]
    rfl
  · refine Or.inr ⟨fault.toFault, core, fun behind => ?_⟩
    simp only [split, herror]
    rfl

/-- A part that can be split off the tokens that are due can be split off in front of others. -/
theorem seals_split_of_cuts {dues : List Due} {left : α → List Due}
    {part : Tokens → Except FormFault (α × Tokens)} (hcuts : Cuts part)
    (h : ∀ ⦃tokens⦄, Fulfils dues tokens → ∃ a rest, Fulfils (left a) rest ∧
      part tokens = .ok (a, rest)) : Seals dues left (split part) := by
  refine seals_split fun tokens htokens => ?_
  obtain ⟨a, rest, hrest, hpart⟩ := h htokens
  obtain ⟨taken, rfl, htaken⟩ := hcuts hpart
  refine Or.inl ⟨a, rest, hrest, fun behind => ?_⟩
  rw [List.append_assoc, htaken]

/-- The colon, marks and names leave what is due as it is. -/
theorem seals_splitFormals {below : List Due} (marked : Bool) :
    Seals (.closer '}' :: below) (fun _ => .closer '}' :: below) (split (splitFormals marked)) := by
  refine seals_split fun tokens htokens => ?_
  fun_induction splitFormals marked tokens with
  | case1 => cases fulfils_nil_iff.mp htokens
  | case2 rest =>
    obtain ⟨dues', hdue, hrest⟩ := fulfils_cons_iff.mp htokens
    cases hdue
    exact Or.inl ⟨[], rest, hrest, fun _ => rfl⟩
  | case3 rest ih =>
    obtain ⟨dues', hdue, hrest⟩ := fulfils_cons_iff.mp htokens
    cases hdue
    exact ih hrest
  | case4 marked name rest ih =>
    obtain ⟨dues', hdue, hrest⟩ := fulfils_cons_iff.mp htokens
    cases hdue
    have hpart : ∀ rest, splitFormals marked (.atom name :: rest) =
        splitFormals false rest >>= fun p =>
          pure (⟨if marked then .deferred else .eager, name⟩ :: p.1, p.2) := by
      intro rest
      cases marked <;> rfl
    rcases ih hrest with ⟨params, rest', hrest', hok⟩ | ⟨fault, herror⟩
    · refine Or.inl ⟨⟨if marked then .deferred else .eager, name⟩ :: params, rest', hrest', ?_⟩
      intro behind
      rw [List.cons_append, hpart, hok]
      rfl
    · refine Or.inr ⟨fault, fun behind => ?_⟩
      rw [List.cons_append, hpart, herror]
      rfl
  | case5 tokens marked hend hcolon hmark hname =>
    obtain ⟨token, rest, dues', rfl, -, -⟩ := htokens.exists_cons
    refine Or.inr ⟨⟨.formalExpected, rfl⟩, fun behind => ?_⟩
    rw [List.cons_append]
    unfold splitFormals
    split
    · rename_i heq
      cases heq
    · rename_i heq
      exact (hcolon rest rfl (by rw [(List.cons.inj heq).1])).elim
    · rename_i heq
      exact (hmark rest rfl (by rw [(List.cons.inj heq).1])).elim
    · rename_i heq
      exact (hname _ rest (by rw [(List.cons.inj heq).1])).elim
    · rfl

theorem seals_splitBody {below : List Due} :
    Seals (.closer '}' :: below) (fun _ => below) (split (splitBody 0)) :=
  seals_split_of_cuts (cuts_splitBody 0) fun _ htokens =>
    splitBody_of_fulfils [] htokens

theorem seals_splitArgument {below : List Due} :
    Seals (.closer ')' :: below) (fun found => behindSeparator below found.2)
      (split splitArgument) := by
  refine seals_split fun tokens htokens => ?_
  obtain ⟨argument, separator, rest, hrest, hopen⟩ :=
    splitOpen_of_fulfils [] (by simp) htokens
  obtain ⟨taken, rfl, htaken⟩ := cuts_splitOpen 0 0 hopen
  cases argument with
  | nil =>
    refine Or.inr ⟨⟨.missingArgument, rfl⟩, fun behind => ?_⟩
    unfold splitArgument
    rw [List.append_assoc, htaken]
    rfl
  | cons first argument =>
    refine Or.inl ⟨(first :: argument, separator), rest, hrest, fun behind => ?_⟩
    unfold splitArgument
    rw [List.append_assoc, htaken]

theorem seals_splitGroups {below : List Due} (groups : List Char) :
    Seals (closing groups below) (fun _ => below) (split (splitGroups groups)) := by
  refine seals_split_of_cuts (cuts_splitGroups groups) fun tokens htokens => ?_
  obtain ⟨rest, hrest, hgroups⟩ := splitGroups_of_fulfils htokens
  exact ⟨(), rest, hrest, hgroups⟩

/-! ## Terms where one is due, or within a group -/

/-- A number of terms on top of what is due. Within a group no term is due. -/
def owed : Due → Nat → List Due → List Due
  | .term, n, below => List.replicate n .term ++ below
  | .closer c, _, below => .closer c :: below

/-- The action reads a term where one is due. Within a group it reads what is there. -/
def Once (action : TokenM α) : Prop :=
  ∀ first below, Seals (owed first 1 below) (fun _ => owed first 0 below) action

theorem Once.seals {action : TokenM α} (h : Once action) (first : Due) (n : Nat)
    (below : List Due) :
    Seals (owed first (n + 1) below) (fun _ => owed first n below) action := by
  cases first with
  | term => exact h .term (owed .term n below)
  | closer c => exact h (.closer c) below

theorem owed_one (first : Due) (below : List Due) : owed first 1 below = first :: below := by
  cases first <;> rfl

section Due

variable {first : Due} {below dues : List Due}

theorem due_of_leaf {token : Lexeme} (hdelimiter : ∀ c, token ≠ .delimiter c)
    (hkeyword : ∀ op, token ≠ .keyword op) (h : due (first :: below) token = some dues) :
    dues = owed first 0 below := by
  cases token with
  | delimiter c => exact absurd rfl (hdelimiter c)
  | keyword op => exact absurd rfl (hkeyword op)
  | _ => cases first <;> exact (Option.some.inj h).symm

theorem due_of_keyword {op : Keyword} (h : due (first :: below) (.keyword op) = some dues) :
    dues = owed first op.arity below := by
  cases first <;> exact (Option.some.inj h).symm

theorem due_of_parenthesis (h : due (first :: below) (.delimiter '(') = some dues) :
    dues = .closer ')' :: owed first 0 below := by
  cases first <;> exact (Option.some.inj h).symm

theorem due_of_brace (h : due (first :: below) (.delimiter '{') = some dues) :
    dues = .closer '}' :: owed first 0 below := by
  cases first <;> exact (Option.some.inj h).symm

end Due

/-- Within a group nothing that is due changes. -/
theorem Once.within {action : TokenM α} (h : Once action) (c : Char) (below : List Due) :
    Seals (.closer c :: below) (fun _ => .closer c :: below) action := h (.closer c) below

section Operations

variable {operand : TokenM (Datum Tokens)} {skip : TokenM Unit} {first : Due} {below : List Due}
  (ho : Once operand)
include ho

theorem seals_numberOperand (op : Keyword) (n : Nat) :
    Seals (owed first (n + 1) below) (fun _ => owed first n below) (numberOperand operand op) := by
  refine (ho.seals first n below).bind fun value => ?_
  cases value.number? with
  | some x => exact .pure rfl
  | none => exact .mismatch _ _ _

theorem seals_listOperand (op : Keyword) (n : Nat) :
    Seals (owed first (n + 1) below) (fun _ => owed first n below) (listOperand operand op) := by
  refine (ho.seals first n below).bind fun value => ?_
  cases value.list? with
  | some items => exact .pure rfl
  | none => exact .mismatch _ _ _

theorem seals_equalOperands (op : Keyword) :
    Seals (owed first 2 below) (fun _ => owed first 0 below) (equalOperands operand op) := by
  refine (ho.seals first 1 below).bind fun x => (ho.seals first 0 below).bind fun y => ?_
  split
  · exact .pure rfl
  · exact .pure rfl
  · split
    · exact .mismatch _ _ _
    · exact .mismatch _ _ _

variable (hs : Once skip)
include hs

theorem seals_condition :
    Seals (owed first 3 below) (fun _ => owed first 0 below) (condition operand skip) := by
  refine (seals_numberOperand ho _ 2).bind fun flag => ?_
  split
  · exact (hs.seals first 1 below).bind fun _ => ho.seals first 0 below
  · exact (ho.seals first 1 below).bind fun value =>
      (hs.seals first 0 below).bind fun _ => .pure rfl

/-- A keyword reads as many terms as its arity. -/
theorem seals_applyKeyword (op : Keyword) :
    Seals (owed first op.arity below) (fun _ => owed first 0 below)
      (applyKeyword operand skip op) := by
  cases hf : numberOf? op with
  | some f =>
    rw [Keyword.arity_of_numeric? ((numeric?_eq_numberOf? op).trans hf)]
    unfold applyKeyword
    simp only [hf]
    exact (seals_numberOperand ho _ 1).bind fun x =>
      (seals_numberOperand ho _ 0).bind fun y => .pure rfl
  | none =>
    unfold applyKeyword
    cases op with
    | eq => exact (seals_equalOperands ho _).map fun _ => rfl
    | ne => exact (seals_equalOperands ho _).map fun _ => rfl
    | cond => exact seals_condition ho hs
    | push =>
      refine (ho.seals first 1 below).bind fun item => ?_
      refine (seals_listOperand ho _ 0).bind fun items => ?_
      exact (Seals.lift _).bind fun _ => .pure rfl
    | tos =>
      refine (seals_listOperand ho _ 0).bind fun items => ?_
      cases items with
      | nil => exact .mismatch _ _ _
      | cons head rest => exact .pure rfl
    | bos => exact (seals_listOperand ho _ 0).bind fun items => .pure rfl
    | isNil =>
      refine (ho.seals first 0 below).bind fun value => ?_
      cases value <;> exact .pure rfl
    | nil => exact .pure rfl
    | _ => cases hf

end Operations

/-! ## Closures and calls -/

theorem seals_closure {below : List Due} (scope : Scope Tokens) :
    Seals (.closer '}' :: below) (fun _ => below) (closure scope) :=
  (seals_splitFormals false).bind fun _ => seals_splitBody.bind fun _ =>
    (Seals.lift _).bind fun _ => (Seals.lift _).bind fun _ =>
      (Seals.lift _).bind fun _ => .pure rfl

theorem seals_captureArgument {below : List Due} :
    Seals (.closer ')' :: below) (fun found => behindSeparator below found.2) captureArgument :=
  seals_splitArgument.bind fun _ => (Seals.lift _).bind fun _ => .pure rfl

section Calls

variable {eval : Scope Tokens → TokenM (Datum Tokens)} (he : ∀ scope, Once (eval scope))
  {below : List Due}
include he

theorem seals_bindActual (scope : Scope Tokens) (param : Param) :
    Seals (.closer ')' :: below) (fun found => behindSeparator below found.2)
      (bindActual eval scope param) := by
  unfold bindActual
  cases param.mode with
  | eager =>
    exact ((he scope).within ')' below).bind fun value =>
      seals_separator.bind fun found => .pure rfl
  | deferred =>
    exact seals_captureArgument.bind fun captured =>
      (Seals.lift _).bind fun slot => .pure rfl

/-- The last argument is followed by the parenthesis that closes the call. -/
theorem seals_bindActuals (scope : Scope Tokens) (params : List Param) :
    Seals (.closer ')' :: below) (fun _ => if params.isEmpty then .closer ')' :: below else below)
      (bindActuals eval scope params) := by
  induction params with
  | nil => exact .pure rfl
  | cons param params ih =>
    refine (seals_bindActual he scope param).bind fun bound => ?_
    obtain ⟨actual, separator⟩ := bound
    cases params with
    | nil =>
      cases separator with
      | comma => exact .fail _
      | close => exact (Seals.lift _).bind fun _ => .pure rfl
    | cons next params =>
      cases separator with
      | comma => exact (Seals.lift _).bind fun _ => ih.bind fun actuals => .pure rfl
      | close => exact .fail _

theorem seals_call (scope : Scope Tokens) (params : List Param) (body : Tokens)
    (defining : Scope Tokens) :
    Seals (.closer ')' :: below) (fun _ => below) (call eval scope params body defining) := by
  cases params with
  | nil => exact Seals.expect.bind fun _ => .lift _
  | cons param params =>
    exact (seals_bindActuals he scope (param :: params)).bind fun actuals =>
      (Seals.lift _).bind fun inner => (Seals.lift _).bind fun _ => .lift _

theorem seals_function (scope : Scope Tokens) :
    Seals (.closer ')' :: below) (fun _ => below) (application.function eval scope) := by
  refine ((he scope).within ')' below).bind fun value => ?_
  have hother : Seals (.closer ')' :: below) (fun _ => below) (do
      throw (.notAFunction (← (render value).lift)) : TokenM (Datum Tokens)) :=
    (Seals.lift _).bind fun _ => .throw _
  cases value with
  | closure params body defining => exact seals_call he scope params body defining
  | number x => exact hother
  | string text => exact hother
  | list items => exact hother

variable {skip : TokenM Unit} (hs : Once skip)
include hs

theorem seals_operation (scope : Scope Tokens) (op : Keyword) :
    Seals (.closer ')' :: below) (fun _ => below) (application.operation eval skip scope op) := by
  have hkeyword : Seals (owed (.closer ')') op.arity below) (fun _ => owed (.closer ')') 0 below)
      (applyKeyword (eval scope) skip op) := seals_applyKeyword (he scope) hs op
  exact hkeyword.nested.bind fun value => Seals.expect.bind fun _ => .pure rfl

theorem seals_application (scope : Scope Tokens) :
    Seals (.closer ')' :: below) (fun _ => below) (application eval skip scope) := by
  intro tokens htokens limits core
  obtain ⟨token, rest, dues, rfl, hdue, hrest⟩ := htokens.exists_cons
  cases token with
  | keyword op =>
    cases hdue
    exact seals_operation he hs scope op hrest limits core
  | _ => exact seals_function he scope htokens limits core

theorem once_termWith (scope : Scope Tokens) : Once (termWith eval skip scope) := by
  intro first below
  rw [owed_one]
  refine Seals.next fun token dues hdue => ?_
  split
  · rw [due_of_leaf (by simp) (by simp) hdue]
    exact .pure rfl
  · rw [due_of_leaf (by simp) (by simp) hdue]
    exact .pure rfl
  · rw [due_of_leaf (by simp) (by simp) hdue]
    exact .lift _
  · rw [due_of_keyword hdue]
    exact seals_applyKeyword (he scope) hs _
  · rw [due_of_brace hdue]
    exact seals_closure scope
  · rw [due_of_parenthesis hdue]
    exact seals_application he hs scope
  · exact .fail _

end Calls

/-! ## Skipping -/

section Skipping

variable {skip : TokenM Unit} (hs : Once skip)
include hs

theorem seals_times (first : Due) (n : Nat) (below : List Due) :
    Seals (owed first n below) (fun _ => owed first 0 below) (times n skip) := by
  induction n with
  | zero => exact .pure rfl
  | succ n ih => exact (hs.seals first n below).bind fun _ => ih

theorem once_skipWith : Once (skipWith skip) := by
  intro first below
  rw [owed_one]
  refine Seals.next fun token dues hdue => ?_
  split
  · rw [due_of_leaf (by simp) (by simp) hdue]
    exact .pure rfl
  · rw [due_of_leaf (by simp) (by simp) hdue]
    exact .pure rfl
  · rw [due_of_leaf (by simp) (by simp) hdue]
    exact .pure rfl
  · rw [due_of_keyword hdue]
    exact seals_times hs first _ below
  · rw [due_of_parenthesis hdue]
    exact seals_splitGroups [')']
  · rw [due_of_brace hdue]
    exact seals_splitGroups ['}']
  · exact .fail _

end Skipping

/-- Skipping a term ends in the same way whatever stands behind it. -/
theorem once_skipWithin (levels : Nat) : Once (skipWithin levels) := by
  induction levels with
  | zero => exact fun _ _ => .tooDeep
  | succ levels ih => exact fun first below => (once_skipWith ih first below).nested

/-- Evaluating a term ends in the same way whatever stands behind it. -/
theorem once_evaluateWithin (levels : Nat) (scope : Scope Tokens) :
    Once (evaluateWithin levels scope) := by
  induction levels generalizing scope with
  | zero => exact fun _ _ => .tooDeep
  | succ levels ih =>
    exact fun first below => (once_termWith ih (once_skipWithin levels) scope first below).nested

/-! ## Tokens that are skipped as a term -/

/-- When the action succeeds it has taken what is due and changed nothing, and it does the same
in front of other tokens and in any other state. -/
def SkipsAll (dues : List Due) (skip : TokenM Unit) : Prop :=
  ∀ ⦃tokens limits core rest core'⦄, skip tokens limits core = .ok ((), rest) core' →
    core' = core ∧ ∃ taken, tokens = taken ++ rest ∧ Ends dues taken ∧
      ∀ ⦃limits'⦄, limits.levels ≤ limits'.levels → ∀ behind core₁,
        skip (taken ++ behind) limits' core₁ = .ok ((), behind) core₁

namespace SkipsAll

variable {skip : TokenM Unit} {dues dues' : List Due}

theorem pure : SkipsAll [] (Pure.pure () : TokenM Unit) := by
  intro tokens limits core rest core' h
  cases h
  exact ⟨rfl, [], rfl, .nil, fun _ _ _ _ => rfl⟩

theorem bind {next : TokenM Unit} (h : SkipsAll dues skip) (hnext : SkipsAll dues' next) :
    SkipsAll (dues ++ dues') (skip >>= fun _ => next) := by
  intro tokens limits core rest core' hrun
  obtain ⟨⟨⟩, behind, core₁, hfirst, hrest⟩ := ReadM.bind_eq_ok_iff.mp hrun
  obtain ⟨rfl, taken, rfl, htaken, hagain⟩ := h hfirst
  obtain ⟨rfl, taken', rfl, htaken', hagain'⟩ := hnext hrest
  refine ⟨rfl, taken ++ taken', (List.append_assoc _ _ _).symm, htaken.append htaken', ?_⟩
  intro limits' hlevels behind core₁
  rw [List.append_assoc]
  exact ReadM.bind_eq_ok_iff.mpr ⟨(), _, core₁, hagain hlevels _ core₁,
    hagain' hlevels behind core₁⟩

theorem times (h : SkipsAll [.term] skip) (n : Nat) :
    SkipsAll (List.replicate n .term) (Plain.times n skip) := by
  induction n with
  | zero => exact pure
  | succ n ih => exact h.bind ih

theorem splitGroups (groups : List Char) :
    SkipsAll (groups.map .closer) (split (splitGroups groups)) := by
  intro tokens limits core rest core' h
  unfold split at h
  cases hgroups : Plain.splitGroups groups tokens with
  | error fault =>
    rw [hgroups] at h
    cases h
  | ok result =>
    rw [hgroups] at h
    cases h
    obtain ⟨taken, htokens, hends⟩ := ends_of_splitGroups hgroups
    obtain ⟨taken', htokens', hcut⟩ := cuts_splitGroups groups hgroups
    obtain rfl := List.append_cancel_right (htokens.symm.trans htokens')
    refine ⟨rfl, taken, htokens, hends, fun limits' _ behind core₁ => ?_⟩
    unfold split
    rw [hcut]
    rfl

/-- Behind the first token of a term. -/
theorem skipWith (h : SkipsAll [.term] skip) : SkipsAll [.term] (skipWith skip) := by
  intro tokens limits core rest core' hrun
  obtain ⟨token, behind, core₁, hfirst, hrest⟩ := ReadM.bind_eq_ok_iff.mp hrun
  cases tokens with
  | nil => cases hfirst
  | cons first tokens =>
    cases hfirst
    have hbehind : ∀ {dues : List Due} {action : TokenM Unit},
        (∀ below, due (.term :: below) token = some (dues ++ below)) →
        (∀ behind limits core, Plain.skipWith skip (token :: behind) limits core =
          action behind limits core) → SkipsAll dues action →
        action behind limits core = .ok ((), rest) core' →
          core' = core ∧ ∃ taken, token :: behind = taken ++ rest ∧ Ends [.term] taken ∧
            ∀ ⦃limits'⦄, limits.levels ≤ limits'.levels → ∀ behind core₁,
              Plain.skipWith skip (taken ++ behind) limits' core₁ = .ok ((), behind) core₁ := by
      intro dues action hdue haction hskips hrun
      obtain ⟨hcore, taken, rfl, htaken, hagain⟩ := hskips hrun
      refine ⟨hcore, token :: taken, rfl, .cons hdue htaken, fun limits' hlevels behind core₁ => ?_⟩
      exact (haction _ _ _).trans (hagain hlevels behind core₁)
    split at hrest
    · exact hbehind (fun _ => rfl) (fun _ _ _ => rfl) pure hrest
    · exact hbehind (fun _ => rfl) (fun _ _ _ => rfl) pure hrest
    · exact hbehind (fun _ => rfl) (fun _ _ _ => rfl) pure hrest
    · exact hbehind (fun _ => rfl) (fun _ _ _ => rfl) (h.times _) hrest
    · exact hbehind (fun _ => rfl) (fun _ _ _ => rfl) (splitGroups [')']) hrest
    · exact hbehind (fun _ => rfl) (fun _ _ _ => rfl) (splitGroups ['}']) hrest
    · cases hrest

theorem nested (h : SkipsAll dues skip) : SkipsAll dues (ReadM.nested skip) := by
  intro tokens limits core rest core' hrun
  unfold ReadM.nested CoreM.nested at hrun
  by_cases hdeep : limits.maxDepth ≤ limits.depth
  · rw [if_pos hdeep] at hrun
    cases hrun
  · rw [if_neg hdeep] at hrun
    obtain ⟨hcore, taken, htokens, htaken, hagain⟩ := h hrun
    refine ⟨hcore, taken, htokens, htaken, fun limits' hlevels behind core₁ => ?_⟩
    obtain ⟨hdeep', hdeeper⟩ := Limits.enter hlevels hdeep
    unfold ReadM.nested CoreM.nested
    rw [if_neg hdeep']
    exact hagain hdeeper behind core₁

/-- Tokens that are skipped as a term are what is due where a term is. -/
theorem skipWithin (levels : Nat) : SkipsAll [.term] (skipWithin levels) := by
  induction levels with
  | zero =>
    intro tokens limits core rest core' h
    cases h
  | succ levels ih => exact ih.skipWith.nested

end SkipsAll

end BraceLang.Plain
