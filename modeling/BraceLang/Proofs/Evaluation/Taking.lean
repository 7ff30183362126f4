import BraceLang.Proofs.Evaluation.Extent

/-!
# What an evaluation takes

A successful evaluation takes one of the extents of its number of levels. The statement is proved
for every function of an evaluation under the assumption that it holds of the functions for the
terms inside, and for all by induction on the levels.

A call is the case where it takes more than a look at the tokens. A captured argument is any run of
tokens in which parentheses and braces are balanced separately, but as the argument is evaluated
before the call succeeds, what was captured is an extent as well.

* `EvalM.takes_applyKeyword`: the operands of a keyword are as many terms as its arity.
* `EvalM.takes_call`: a call takes arguments with commas between them and a parenthesis behind.
* `EvalM.TermOver`: what a term can be, given what the terms inside can be.
* `EvalM.takes_evaluateWithin`, `EvalM.takes_skipWithin`: evaluating and skipping take an extent.
-/

namespace BraceLang

theorem Keyword.arity_of_numeric? {op : Keyword} {f : Float → Float → Float}
    (h : op.numeric? = some f) : op.arity = 2 := by
  cases op <;> first | rfl | cases h

namespace EvalM

/-! ## Keywords -/

section Operations

variable {context : EvalContext} {depth : Nat} {operand : EvalM Value} {skip : EvalM Unit}
  {L : Language Value}

theorem takes_numberOperand (ho : Takes context depth operand L) (op : Keyword) :
    Takes context depth (numberOperand operand op) L := by
  refine ho.bind_then fun value => ?_
  split
  · exact Takes.pure _
  · exact Takes.throw _

theorem takes_listOperand (ho : Takes context depth operand L) (op : Keyword) :
    Takes context depth (listOperand operand op) L := by
  refine ho.bind_then fun value => ?_
  split
  · exact Takes.pure _
  · exact Takes.throw _

theorem takes_equalOperands (ho : Takes context depth operand L) (op : Keyword) :
    Takes context depth (equalOperands operand op) (L * L) := by
  refine ho.bind fun x => ho.bind_then fun y => ?_
  split
  · exact Takes.pure _
  · exact Takes.pure _
  · exact Takes.pure _
  · split <;> exact Takes.throw _

/-- Whichever branch is skipped, the condition is followed by two terms. -/
theorem takes_condition (ho : Takes context depth operand L) (hs : Takes context depth skip L) :
    Takes context depth (condition operand skip) (L * (L * L)) := by
  refine (takes_numberOperand ho _).bind fun flag => ?_
  split
  · exact hs.bind fun _ => ho
  · exact ho.bind fun _ => hs.bind_then fun _ => Takes.pure _

/-- The operands of a keyword are as many terms as its arity. -/
theorem takes_applyKeyword (ho : Takes context depth operand L) (hs : Takes context depth skip L)
    (op : Keyword) : Takes context depth (applyKeyword operand skip op) (L ^ op.arity) := by
  cases hf : op.numeric? with
  | some f =>
    rw [Keyword.arity_of_numeric? hf, pow_two]
    unfold applyKeyword
    simp only [hf]
    exact (takes_numberOperand ho _).bind fun x =>
      (takes_numberOperand ho _).bind_then fun y => Takes.pure _
  | none =>
    unfold applyKeyword
    cases op with
    | eq =>
      rw [show Keyword.eq.arity = 2 from rfl, pow_two]
      exact (takes_equalOperands ho _).map
    | ne =>
      rw [show Keyword.ne.arity = 2 from rfl, pow_two]
      exact (takes_equalOperands ho _).map
    | cond =>
      rw [show Keyword.cond.arity = 3 from rfl, pow_succ', pow_two]
      exact takes_condition ho hs
    | push =>
      rw [show Keyword.push.arity = 2 from rfl, pow_two]
      exact ho.bind fun item => (takes_listOperand ho _).bind_then fun items =>
        (takes_ofStoreM (Store.keeps_push _ _)).map
    | tos =>
      rw [show Keyword.tos.arity = 1 from rfl, pow_one]
      refine (takes_listOperand ho _).bind_then fun items => (takes_ask _).bind_one fun head => ?_
      cases head with
      | some head => exact Takes.pure _
      | none => exact Takes.throw _
    | bos =>
      rw [show Keyword.bos.arity = 1 from rfl, pow_one]
      exact (takes_listOperand ho _).bind_then fun items => (takes_ask _).map
    | isNil =>
      rw [show Keyword.isNil.arity = 1 from rfl, pow_one]
      refine ho.bind_then fun value => ?_
      split <;> exact Takes.pure _
    | nil =>
      rw [show Keyword.nil.arity = 0 from rfl, pow_zero]
      exact Takes.pure _
    | _ => cases hf

end Operations

/-! ## Closures -/

variable {context : EvalContext} {depth : Nat} {st st' : EvalState} {L : Language Value}

theorem takes_lookupName (name : TextRef) (env : Environment) :
    Takes context depth (lookupName name env) 1 := by
  refine (takes_ask _).bind_one fun value => ?_
  split
  · exact (takes_resolve _).bind_one fun _ => Takes.throw _
  · refine (takes_ask _).bind_one fun slot => ?_
    split
    · exact Takes.pure _
    · exact (takes_resolve _).bind_one fun _ => Takes.throw _
  · exact Takes.pure _

/-- The tokens of a closure behind its opening brace. -/
def closureTails : Language Value :=
  {tokens | ∃ head formals body content, IsRun formalStep {} head formals ∧
    IsRun bodyStep {} body content ∧ tokens = head ++ body}

theorem closes_of_closureTails {tokens : List Value} (h : tokens ∈ closureTails) :
    Closes tokens ['}'] := by
  obtain ⟨head, formals, body, content, hhead, hbody, rfl⟩ := h
  have hplain := Definite.of_plain (plain_of_isRun_formals hhead)
  have hcloses : Closes body ([] ++ ['}']) := closes_of_isRun_body hbody rfl
  exact Closes.append (List.cons_ne_nil _ _) hplain hcloses

theorem takes_closure (env : Environment) : Takes context depth (closure env) closureTails := by
  intro st st' value hst _ h
  obtain ⟨formals, t, hformals, h⟩ := reader_bind_eq_ok_iff.mp h
  obtain ⟨head, hhead, htaken⟩ := taken_of_consume hst hformals
  obtain ⟨content, u, hcontent, hstore⟩ := reader_bind_eq_ok_iff.mp h
  obtain ⟨body, hbody, htaken'⟩ := taken_of_consume htaken.ready hcontent
  have hkeeps : Keeps Store.Grows (do
      let formals ← Store.ofList formals
      let body ← Store.ofList content
      Closure.build ⟨formals, body, env.frames⟩) :=
    (Store.keeps_ofList _).bind fun _ => (Store.keeps_ofList _).bind fun _ => Closure.keeps_build _
  have hbuilt := (takes_ofStoreM hkeeps).taken_nil htaken'.ready hstore
  refine ⟨head ++ body, ⟨head, formals, body, content, hhead, hbody, rfl⟩, ?_⟩
  have := (htaken.trans hst htaken').trans hst hbuilt
  rwa [List.append_nil] at this

/-! ## Arguments -/

/-- These tokens are an extent, or they are what has been captured. -/
def Argument (L : Language Value) (s : Store) : Actual → List Value → Prop
  | .evaluated _, tokens => tokens ∈ L
  | .captured ref, tokens => ∃ slot, s.slot ref = .ok slot ∧ s.Chain slot.tokens tokens

theorem Argument.mono {s s' : Store} {actual : Actual} {tokens : List Value}
    (h : Argument L s actual tokens) (hext : s.Extends s') : Argument L s' actual tokens := by
  cases actual with
  | evaluated value => exact h
  | captured ref =>
    obtain ⟨slot, hslot, hchain⟩ := h
    obtain ⟨slot', hslot', htokens⟩ := hext.slot_of_ok hslot
    refine ⟨slot', hslot', ?_⟩
    rw [htokens]
    exact hchain.mono hext

/-- Arguments with the separators behind them. -/
def joined : List (List Value) → List Value
  | [] => []
  | argument :: arguments =>
    argument ++ separatorToken (if arguments.isEmpty then .close else .comma) :: joined arguments

theorem closes_joined {arguments : List (List Value)} (hne : arguments ≠ [])
    (h : ∀ argument ∈ arguments, Definite argument) : Closes (joined arguments) [')'] := by
  induction arguments with
  | nil => exact absurd rfl hne
  | cons argument arguments ih =>
    have hargument := h argument List.mem_cons_self
    cases arguments with
    | nil => exact Closes.concat rfl hargument
    | cons second arguments =>
      have hcomma : Definite [separatorToken .comma] :=
        Definite.of_plain (by simp [separatorToken, Value.role])
      have hclose : [')'] ≠ [] := List.cons_ne_nil _ _
      have hrest := ih (List.cons_ne_nil _ _) fun a ha => h a (List.mem_cons_of_mem _ ha)
      have hbehind := Closes.append hclose hcomma hrest
      exact Closes.append hclose hargument hbehind

/-- What stands behind the callee of a call with these arguments. -/
def closing (arguments : List (List Value)) : List Value :=
  if arguments.isEmpty then [separatorToken .close] else joined arguments

theorem closes_closing {arguments : List (List Value)}
    (h : ∀ argument ∈ arguments, Definite argument) : Closes (closing arguments) [')'] := by
  unfold closing
  cases arguments with
  | nil =>
    have hcloses : Closes ([] ++ [separatorToken .close]) [')'] :=
      Closes.concat rfl (Or.inl Nested.nil)
    exact hcloses
  | cons argument arguments => exact closes_joined (List.cons_ne_nil _ _) h

/-- The tokens of a keyword in parentheses or of a call, behind the first parenthesis, where these
are the terms inside. -/
inductive ApplicationTail (L : Language Value) : List Value → Prop
  | operation {op : Keyword} {operands : List Value} : operands ∈ L ^ op.arity →
      ApplicationTail L (.keyword op :: operands ++ [.delimiter ')'])
  | call {callee : List Value} {arguments : List (List Value)} : callee ∈ L →
      (∀ argument ∈ arguments, argument ∈ L) → ApplicationTail L (callee ++ closing arguments)

theorem ApplicationTail.closes (hL : ∀ n, ∀ tokens ∈ L ^ n, Definite tokens) {tokens : List Value}
    (h : ApplicationTail L tokens) : Closes tokens [')'] := by
  have hL' : ∀ tokens ∈ L, Definite tokens := fun tokens ht => hL 1 tokens (by rwa [pow_one])
  cases h with
  | @operation op operands hoperands =>
    have hkeyword : Definite [.keyword op] := Definite.of_plain (by simp [Value.role])
    exact Closes.concat rfl (hkeyword.append (hL _ operands hoperands))
  | call hcallee harguments =>
    have hclosing := closes_closing fun a ha => hL' a (harguments a ha)
    exact Closes.append (List.cons_ne_nil _ _) (hL' _ hcallee) hclosing

theorem argumentStep_more {run state : ArgumentRun} {token : Value}
    (h : argumentStep run token = .ok (.more state)) : state.tokens = run.tokens.push token := by
  unfold argumentStep at h
  dsimp only at h
  split at h
  · split at h <;> cases h
  · split at h <;> first | (cases h; rfl) | cases h

theorem argumentStep_done {run : ArgumentRun} {token : Value} {result : List Value × Separator}
    (h : argumentStep run token = .ok (.done result)) :
    result.1 = run.tokens.toList ∧ token = separatorToken result.2 := by
  unfold argumentStep at h
  dsimp only at h
  split at h
  · rename_i separator hseparator _ _
    split at h
    · cases h
    · cases h
      exact ⟨rfl, eq_separatorToken hseparator⟩
  · split at h <;> cases h

/-- What is captured are the tokens in front of the separator. -/
theorem tokens_of_isRun_argument {run : ArgumentRun} {tokens : List Value}
    {result : List Value × Separator} (h : IsRun argumentStep run tokens result) :
    ∃ argument, tokens = argument ++ [separatorToken result.2] ∧
      result.1 = run.tokens.toList ++ argument := by
  induction h with
  | done hstep =>
    obtain ⟨hresult, rfl⟩ := argumentStep_done hstep
    exact ⟨[], rfl, by simp [hresult]⟩
  | @more _ _ token _ _ hstep _ ih =>
    obtain ⟨argument, rfl, hresult⟩ := ih
    refine ⟨token :: argument, rfl, ?_⟩
    rw [hresult, argumentStep_more hstep]
    simp

theorem taken_of_captureArgument {result : ListRef × Separator} (hst : Ready st)
    (h : captureArgument context st = .ok result st') :
    ∃ argument,
      IsRun argumentStep {} (argument ++ [separatorToken result.2]) (argument, result.2) ∧
      st'.store.Chain result.1 argument ∧ Taken st (argument ++ [separatorToken result.2]) st' := by
  obtain ⟨⟨captured, separator⟩, t, hconsume, h⟩ := reader_bind_eq_ok_iff.mp h
  obtain ⟨taken, hrun, htaken⟩ := taken_of_consume hst hconsume
  obtain ⟨argument, rfl, hcaptured⟩ := tokens_of_isRun_argument hrun
  obtain ⟨tokens, u, hstore, hpure⟩ := reader_bind_eq_ok_iff.mp h
  cases hpure
  have hargument : captured = argument := by simpa using hcaptured
  subst hargument
  have hbuilt := (takes_ofStoreM (Store.keeps_ofList captured)).taken_nil htaken.ready hstore
  refine ⟨captured, hrun, ?_, ?_⟩
  · exact Store.chain_of_ofList htaken.ready.layout (ofStoreM_eq_ok_iff.mp hstore).1
  · have := htaken.trans hst hbuilt
    rwa [List.append_nil] at this

theorem onTokens_eq_ok {α : Type} {tokens left : ListRef} {action : EvalM α} {a : α}
    (h : onTokens tokens action context st = .ok (a, left) st') :
    action context ⟨st.store, tokens, st.depth⟩ = .ok a ⟨st'.store, left, st'.depth⟩ ∧
      st'.cursor = st.cursor := by
  unfold onTokens at h
  cases haction : action context ⟨st.store, tokens, st.depth⟩ with
  | ok b t =>
    simp only [haction] at h
    cases h
    exact ⟨rfl, rfl⟩
  | error e t =>
    simp only [haction] at h
    cases h

theorem takes_onTokens {α : Type} (tokens : ListRef) {action : EvalM α} (h : Grows action) :
    Takes context depth (onTokens tokens action) 1 :=
  Takes.of_cursor (grows_onTokens tokens h) fun _ _ _ hrun => (onTokens_eq_ok hrun).2

theorem eq_of_checkSeparator {last : Bool} {separator : Separator} {u : Unit}
    (h : checkSeparator last separator context st = .ok u st') :
    separator = (if last then .close else .comma) ∧ st' = st := by
  cases separator <;> cases last <;> cases h <;> exact ⟨rfl, rfl⟩

section Calls

variable {eval : Environment → EvalM Value}

/-- An argument is evaluated, or captured up to its separator, as its parameter says. -/
theorem taken_of_bindActual (he : ∀ env, Takes context st.depth (eval env) L) {env : Environment}
    {formal : Formal} {result : Actual × Separator} (hst : Ready st)
    (h : bindActual eval env formal context st = .ok result st') :
    ∃ argument, Argument L st'.store result.1 argument ∧
      (match formal.mode with
      | .eager => argument ∈ L
      | .deferred =>
        IsRun argumentStep {} (argument ++ [separatorToken result.2]) (argument, result.2)) ∧
      Taken st (argument ++ [separatorToken result.2]) st' := by
  unfold bindActual at h
  cases hmode : formal.mode with
  | eager =>
    simp only [hmode] at h
    obtain ⟨value, t, hvalue, h⟩ := reader_bind_eq_ok_iff.mp h
    obtain ⟨separator, u, hseparator, hpure⟩ := reader_bind_eq_ok_iff.mp h
    cases hpure
    obtain ⟨argument, hmem, htaken⟩ := he env hst rfl hvalue
    exact ⟨argument, hmem, hmem, htaken.trans hst (taken_of_separator htaken.ready hseparator)⟩
  | deferred =>
    simp only [hmode] at h
    obtain ⟨⟨tokens, separator⟩, t, hcapture, h⟩ := reader_bind_eq_ok_iff.mp h
    obtain ⟨slot, u, hslot, hpure⟩ := reader_bind_eq_ok_iff.mp h
    cases hpure
    obtain ⟨argument, hrun, hchain, htaken⟩ := taken_of_captureArgument hst hcapture
    have hnew := (takes_ofStoreM (Store.keeps_newSlot formal.name tokens)).taken_nil htaken.ready
      hslot
    refine ⟨argument, ?_, hrun, ?_⟩
    · obtain ⟨hcreated, -, -⟩ := ofStoreM_eq_ok_iff.mp hslot
      obtain ⟨-, hslot, hstore⟩ := Store.newSlot_eq_ok_iff.mp hcreated
      refine ⟨{ name := formal.name, tokens }, ?_, hchain.mono hnew.grown⟩
      rw [← hslot, ← hstore]
      exact Store.slot_newSlot t.store formal.name tokens
    · have := htaken.trans hst hnew
      rwa [List.append_nil] at this

theorem taken_of_bindActuals (he : ∀ env, Takes context st.depth (eval env) L) {env : Environment}
    {formals : List Formal} {actuals : List (TextRef × Actual)} (hst : Ready st)
    (h : bindActuals eval env formals context st = .ok actuals st') :
    ∃ arguments, arguments.length = formals.length ∧
      List.Forall₂ (fun actual argument => Argument L st'.store actual.2 argument)
        actuals arguments ∧
      Taken st (joined arguments) st' := by
  induction formals generalizing st actuals with
  | nil =>
    cases h
    exact ⟨[], rfl, .nil, .nil, .refl _, hst, rfl⟩
  | cons formal formals ih =>
    obtain ⟨⟨actual, separator⟩, t, hactual, h⟩ := reader_bind_eq_ok_iff.mp h
    obtain ⟨u, v, hcheck, h⟩ := reader_bind_eq_ok_iff.mp h
    obtain ⟨rest, w, hrest, hpure⟩ := reader_bind_eq_ok_iff.mp h
    cases hpure
    obtain ⟨hseparator, rfl⟩ := eq_of_checkSeparator hcheck
    obtain ⟨argument, hargument, -, htaken⟩ := taken_of_bindActual he hst hactual
    have he' : ∀ env, Takes context v.depth (eval env) L := by
      rwa [htaken.depth]
    obtain ⟨arguments, hlength, harguments, htaken'⟩ := ih he' htaken.ready hrest
    have hempty : arguments.isEmpty = formals.isEmpty := by
      cases arguments <;> cases formals <;> simp_all
    refine ⟨argument :: arguments, by simp [hlength],
      .cons (hargument.mono htaken'.grown) harguments, ?_⟩
    have := htaken.trans hst htaken'
    rw [hseparator, ← hempty] at this
    simpa [joined] using this

/-- A captured argument that has been evaluated is an extent. -/
theorem mem_of_settle (he : ∀ env, Takes context st.depth (eval env) L) {env : Environment}
    {actual : Actual} {argument : List Value} {u : Unit} (hst : Ready st)
    (ha : Argument L st.store actual argument)
    (h : settle eval env actual context st = .ok u st') : argument ∈ L := by
  cases actual with
  | evaluated value => exact ha
  | captured ref =>
    obtain ⟨slot, hslot, hchain⟩ := ha
    obtain ⟨found, t, hask, h⟩ := reader_bind_eq_ok_iff.mp h
    rw [ask_of_ok context hslot] at hask
    cases hask
    obtain ⟨⟨value, left⟩, t, heval, h⟩ := reader_bind_eq_ok_iff.mp h
    obtain ⟨hrun, -⟩ := onTokens_eq_ok heval
    have hready : Ready ⟨st.store, slot.tokens, st.depth⟩ := ⟨hst.layout, argument, hchain⟩
    obtain ⟨tokens, hmem, htaken⟩ := he env hready rfl hrun
    obtain ⟨rest, rfl, hrest⟩ := htaken.reads.split_of_chain hchain
    cases left with
    | empty =>
      rw [Store.Chain.empty_iff.mp hrest, List.append_nil]
      exact hmem
    | chain first =>
      obtain ⟨name, v, -, hfail⟩ := reader_bind_eq_ok_iff.mp h
      cases hfail

theorem takes_settle (he : ∀ env, Grows (eval env)) (env : Environment) (actual : Actual) :
    Takes context depth (settle eval env actual) 1 := by
  cases actual with
  | evaluated value => exact Takes.pure _
  | captured ref =>
    refine (takes_ask _).bind_one fun slot => (takes_onTokens _ (he env)).bind_one fun result => ?_
    dsimp only
    split
    · exact takes_ofStoreM (Store.keeps_fill _ _)
    · exact (takes_resolve _).bind_one fun _ => Takes.fail _

theorem mem_of_settleAll (hg : ∀ env, Grows (eval env))
    (he : ∀ env, Takes context st.depth (eval env) L) {env : Environment}
    {actuals : List (TextRef × Actual)} {arguments : List (List Value)} {u : Unit}
    (hst : Ready st)
    (ha : List.Forall₂ (fun actual argument => Argument L st.store actual.2 argument)
      actuals arguments)
    (h : (actuals.forM fun (_, actual) => settle eval env actual) context st = .ok u st') :
    (∀ argument ∈ arguments, argument ∈ L) ∧ Taken st [] st' := by
  induction actuals generalizing st arguments with
  | nil =>
    cases ha
    cases h
    exact ⟨by simp, .nil, .refl _, hst, rfl⟩
  | cons actual actuals ih =>
    cases ha with
    | cons hactual hactuals =>
      obtain ⟨v, t, hsettle, hrest⟩ := reader_bind_eq_ok_iff.mp h
      have hmem := mem_of_settle he hst hactual hsettle
      have htaken := (takes_settle hg env actual.2).taken_nil hst hsettle
      have hactuals' := hactuals.imp fun _ _ ha => ha.mono htaken.grown
      have he' : ∀ env, Takes context t.depth (eval env) L := by
        rwa [htaken.depth]
      obtain ⟨hmems, htaken'⟩ := ih he' htaken.ready hactuals' hrest
      exact ⟨by simpa using ⟨hmem, hmems⟩, htaken.trans hst htaken'⟩

theorem takes_runBody (he : ∀ env, Grows (eval env)) (env : Environment) (body : ListRef) :
    Takes context depth (runBody eval env body) 1 := by
  refine (takes_onTokens body (he env)).bind_one fun result => ?_
  dsimp only
  split
  · exact Takes.pure _
  · exact Takes.fail _

/-- The tokens of a call behind its callee. -/
theorem takes_call (hg : ∀ env, Grows (eval env)) (he : ∀ env, Takes context depth (eval env) L)
    (env : Environment) (callee : Closure) :
    Takes context depth (call eval env callee)
      {tokens | ∃ arguments, (∀ argument ∈ arguments, argument ∈ L) ∧
        tokens = closing arguments} := by
  refine (takes_askMemory _).bind_one fun formals => ?_
  cases formals with
  | nil =>
    intro st st' value hst hdepth h
    obtain ⟨u, t, hexpect, hbody⟩ := reader_bind_eq_ok_iff.mp h
    have hclose := taken_of_expect hst hexpect
    have htaken := (takes_runBody hg _ _).taken_nil hclose.ready hbody
    exact ⟨[.delimiter ')'] ++ [], ⟨[], by simp, rfl⟩, hclose.trans hst htaken⟩
  | cons formal formals =>
    rintro st st' value hst rfl h
    obtain ⟨actuals, t, hactuals, h⟩ := reader_bind_eq_ok_iff.mp h
    obtain ⟨inner, u, hextend, h⟩ := reader_bind_eq_ok_iff.mp h
    obtain ⟨w, v, hsettle, hbody⟩ := reader_bind_eq_ok_iff.mp h
    obtain ⟨arguments, hlength, harguments, htaken⟩ := taken_of_bindActuals he hst hactuals
    have hframe := (takes_ofStoreM (Environment.keeps_extend _ _)).taken_nil htaken.ready hextend
    have harguments' := harguments.imp fun _ _ ha => ha.mono hframe.grown
    have he' : ∀ env, Takes context u.depth (eval env) L := by
      rwa [hframe.depth, htaken.depth]
    obtain ⟨hmem, hsettled⟩ := mem_of_settleAll hg he' hframe.ready harguments' hsettle
    have hrun := (takes_runBody hg _ _).taken_nil hsettled.ready hbody
    have hclosing : closing arguments = joined arguments := by
      cases arguments with
      | nil => simp at hlength
      | cons => rfl
    refine ⟨joined arguments, ⟨arguments, hmem, hclosing.symm⟩, ?_⟩
    have := ((htaken.trans hst hframe).trans hst hsettled).trans hst hrun
    simpa using this

theorem takes_application (hg : ∀ env, Grows (eval env))
    (he : ∀ depth env, Takes context depth (eval env) L) {skip : EvalM Unit}
    (hs : ∀ depth, Takes context depth skip L) (env : Environment) :
    Takes context depth (application eval skip env) {tokens | ApplicationTail L tokens} := by
  rintro st st' value hst rfl happlication
  obtain ⟨found, t, hlook, h⟩ := reader_bind_eq_ok_iff.mp happlication
  obtain ⟨rfl, hfound⟩ := look?_cases hst hlook
  split at h
  · cases h
  · have hkeyword := hfound _ _ rfl
    rename_i op rest
    obtain ⟨u, v, hmove, h⟩ := reader_bind_eq_ok_iff.mp h
    cases hmove
    obtain ⟨result, w, hnested, h⟩ := reader_bind_eq_ok_iff.mp h
    obtain ⟨u, x, hexpect, hpure⟩ := reader_bind_eq_ok_iff.mp h
    cases hpure
    obtain ⟨operands, hmem, htaken⟩ := takes_nested (takes_applyKeyword (he _ env) (hs _) op)
      hkeyword.ready rfl hnested
    have hparenthesis := taken_of_expect htaken.ready hexpect
    exact ⟨[.keyword op] ++ operands ++ [.delimiter ')'], .operation hmem,
      (hkeyword.trans hst htaken).trans hst hparenthesis⟩
  · obtain ⟨callee, v, hcallee, h⟩ := reader_bind_eq_ok_iff.mp h
    obtain ⟨tokens, hmem, htaken⟩ := he _ env hst rfl hcallee
    split at h
    · obtain ⟨closure, w, hask, hcall⟩ := reader_bind_eq_ok_iff.mp h
      have hparts := (takes_askMemory _).taken_nil htaken.ready hask
      obtain ⟨behind, ⟨arguments, harguments, rfl⟩, htaken'⟩ := takes_call hg (he _) env closure
        hparts.ready rfl hcall
      refine ⟨tokens ++ closing arguments, .call hmem harguments, ?_⟩
      have := (htaken.trans hst hparts).trans hst htaken'
      rwa [List.append_nil] at this
    · obtain ⟨text, w, -, hthrow⟩ := reader_bind_eq_ok_iff.mp h
      cases hthrow

end Calls

/-! ## Terms -/

theorem takes_times {action : EvalM Unit} (h : Takes context depth action L) (n : Nat) :
    Takes context depth (times n action) (L ^ n) := by
  induction n with
  | zero =>
    rw [pow_zero]
    exact Takes.pure _
  | succ n ih =>
    rw [pow_succ']
    exact h.bind fun _ => ih

theorem takes_group (closer : Char) :
    Takes context depth (consume (fun run => .closerExpected run.closer) groupStep { closer })
      {tokens | IsRun groupStep { closer } tokens ()} := by
  intro st st' u hst _ h
  obtain ⟨taken, hrun, htaken⟩ := taken_of_consume hst h
  exact ⟨taken, hrun, htaken⟩

theorem Takes.of_next {α : Type} {atEnd : SyntaxFault} {f : Value → EvalM α}
    (h : ∀ token, ∃ M : Language Value, Takes context depth (f token) M ∧ ∀ tokens ∈ M,
      token :: tokens ∈ L) :
    Takes context depth (next atEnd >>= f) L := by
  intro st st' a hst hdepth hrun
  obtain ⟨token, t, hnext, hrest⟩ := reader_bind_eq_ok_iff.mp hrun
  have hfirst := taken_of_next hst hnext
  obtain ⟨M, htakes, hterm⟩ := h token
  obtain ⟨tokens, hmem, htaken⟩ := htakes hfirst.ready (hfirst.depth.trans hdepth)
    hrest
  exact ⟨[token] ++ tokens, hterm tokens hmem, hfirst.trans hst htaken⟩

/-- The tokens of a term that is evaluated or skipped, where these are the terms inside. -/
inductive TermOver (L : Language Value) : List Value → Prop
  | number {n : Float} : TermOver L [.number n]
  | string {text : TextRef} : TermOver L [.string text]
  | atom {name : TextRef} : TermOver L [.atom name]
  | keyword {op : Keyword} {operands : List Value} : operands ∈ L ^ op.arity →
      TermOver L (.keyword op :: operands)
  | closure {tokens : List Value} : tokens ∈ closureTails →
      TermOver L (.delimiter '{' :: tokens)
  | application {tokens : List Value} : ApplicationTail L tokens →
      TermOver L (.delimiter '(' :: tokens)
  | group {opening : Value} {closer : Char} {tokens : List Value} :
      opening.role = .opens closer → IsRun groupStep { closer } tokens () →
      TermOver L (opening :: tokens)

theorem takes_skipWith {skip : EvalM Unit} (hs : Takes context depth skip L) :
    Takes context depth (skipWith skip) {tokens | TermOver L tokens} := by
  refine Takes.of_next fun token => ?_
  split
  · refine ⟨1, Takes.pure _, fun tokens ht => ?_⟩
    rw [(Language.mem_one _).mp ht]
    exact .number
  · refine ⟨1, Takes.pure _, fun tokens ht => ?_⟩
    rw [(Language.mem_one _).mp ht]
    exact .string
  · refine ⟨1, Takes.pure _, fun tokens ht => ?_⟩
    rw [(Language.mem_one _).mp ht]
    exact .atom
  · exact ⟨_, takes_times hs _, fun tokens ht => .keyword ht⟩
  · exact ⟨_, takes_group _, fun tokens ht => .group rfl ht⟩
  · exact ⟨_, takes_group _, fun tokens ht => .group rfl ht⟩
  · exact ⟨0, (takes_askMemory _).bind_one fun _ => Takes.fail _, fun tokens ht => ht.elim⟩

theorem takes_termWith {eval : Environment → EvalM Value} {skip : EvalM Unit}
    (hg : ∀ env, Grows (eval env)) (he : ∀ depth env, Takes context depth (eval env) L)
    (hs : ∀ depth, Takes context depth skip L) (env : Environment) :
    Takes context depth (termWith eval skip env) {tokens | TermOver L tokens} := by
  refine Takes.of_next fun token => ?_
  split
  · refine ⟨1, Takes.pure _, fun tokens ht => ?_⟩
    rw [(Language.mem_one _).mp ht]
    exact .number
  · refine ⟨1, Takes.pure _, fun tokens ht => ?_⟩
    rw [(Language.mem_one _).mp ht]
    exact .string
  · refine ⟨1, takes_lookupName _ _, fun tokens ht => ?_⟩
    rw [(Language.mem_one _).mp ht]
    exact .atom
  · exact ⟨_, takes_applyKeyword (he _ env) (hs _) _, fun tokens ht => .keyword ht⟩
  · exact ⟨_, takes_closure env, fun tokens ht => .closure ht⟩
  · exact ⟨_, takes_application hg he hs env, fun tokens ht => .application ht⟩
  · exact ⟨0, (takes_askMemory _).bind_one fun _ => Takes.fail _, fun tokens ht => ht.elim⟩

theorem takes_tooDeep {α : Type} : Takes context depth (tooDeep : EvalM α) L :=
  Takes.of_error fun st => ⟨.tooDeep context.maxDepth, st, rfl⟩

/-! ## Levels -/

/-- Languages of which each has the terms over the one before. -/
def Climbs (L : Nat → Language Value) : Prop :=
  ∀ levels tokens, TermOver (L levels) tokens → tokens ∈ L (levels + 1)

theorem climbs_extents : Climbs extents := by
  intro levels tokens h
  have hdefinite : ∀ n, ∀ tokens ∈ extents levels ^ n, Definite tokens :=
    fun n tokens ht => definite_of_mem_pow ht
  cases h with
  | number => exact .number
  | string => exact .string
  | atom => exact .atom
  | keyword h =>
    obtain ⟨operands, rfl, hlength, hmem⟩ := Language.mem_pow.mp h
    exact .keyword hlength hmem
  | closure h => exact .group rfl (closes_of_closureTails h)
  | application h => exact .group rfl (h.closes hdefinite)
  | group hopening h => exact .group hopening (closes_of_isRun_group h)

section Levels

variable {L : Nat → Language Value} (hL : Climbs L)

include hL

theorem takes_skipWithin_of_climbs (levels depth : Nat) :
    Takes context depth (skipWithin levels) (L levels) := by
  induction levels generalizing depth with
  | zero => exact takes_tooDeep
  | succ levels ih => exact takes_nested ((takes_skipWith (ih _)).mono (hL levels))

theorem takes_evaluateWithin_of_climbs (levels depth : Nat) (env : Environment) :
    Takes context depth (evaluateWithin levels env) (L levels) := by
  induction levels generalizing depth env with
  | zero => exact takes_tooDeep
  | succ levels ih =>
    have hskip : ∀ depth, Takes context depth (skipWithin levels) (L levels) :=
      takes_skipWithin_of_climbs hL levels
    exact takes_nested ((takes_termWith (grows_evaluateWithin levels) ih hskip env).mono
      (hL levels))

end Levels

theorem takes_skipWithin (levels depth : Nat) :
    Takes context depth (skipWithin levels) (extents levels) :=
  takes_skipWithin_of_climbs climbs_extents levels depth

theorem takes_evaluateWithin (levels depth : Nat) (env : Environment) :
    Takes context depth (evaluateWithin levels env) (extents levels) :=
  takes_evaluateWithin_of_climbs climbs_extents levels depth env

end EvalM

end BraceLang
