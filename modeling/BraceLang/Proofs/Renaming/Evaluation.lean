import BraceLang.Proofs.Interpreter.Independence
import BraceLang.Proofs.Renaming.Rendering

/-!
# Evaluating what has been renamed

Names matter only up to renaming. When the names in a memory are replaced one to one, the evaluation
of a term ends as it did before, with its value, its failure and what it wrote renamed: a frame binds
the new name to what it bound the old one to, and names are compared for nothing else than being the
same. The number of cells and slots does not change.

* `Renaming.Fails`: a failure and the renamed one.
* `Renaming.Renames`: evaluation steps that do on a renamed memory what others do on the memory.
* `Renaming.renames_evaluate`: terms.
* `Interpreter.perform_renamed`: evaluating renamed tokens in a renamed environment.
-/

namespace BraceLang

open EvalM

/-- An answer from the memory leaves the state as it is. -/
theorem EvalM.askMemory_apply {α : Type} (question : Memory → Except EvalError α)
    (context : EvalContext) (st : EvalState) :
    askMemory question context st =
      match question ⟨st.store, context.texts⟩ with
      | .ok a => .ok a st
      | .error e => .error e st := by
  have hask : askMemory question context st =
      (MonadExcept.ofExcept (question ⟨st.store, context.texts⟩) : EvalM α) context st := rfl
  rw [hask]
  cases question ⟨st.store, context.texts⟩ <;> rfl

namespace Renaming

variable {rename : String → String} {texts texts' : TextTable} (ρ : Renaming rename texts texts')

/-! ## Outcomes -/

/-- A failure and the renamed one. They are the same, except that a name in it is replaced and that
the text of a value is the text of the renamed one. -/
inductive Fails (s : Store) : EvalError → EvalError → Prop
  | same {e : EvalError} : e.quotes = false → Fails s e e
  | undefinedVariable (name : String) :
    Fails s (.undefinedVariable name) (.undefinedVariable (rename name))
  | unresolvedDeferred (name : String) :
    Fails s (.unresolvedDeferred name) (.unresolvedDeferred (rename name))
  | trailingArgument (name : String) :
    Fails s (.badSyntax (.trailingArgument name)) (.badSyntax (.trailingArgument (rename name)))
  | notAFunction {v : Value} {text text' : String} : Memory.render ⟨s, texts⟩ v = .ok text →
    Memory.render ⟨ρ.store s, texts'⟩ (ρ.value v) = .ok text' →
    Fails s (.notAFunction text) (.notAFunction text')
  | notExpected {v : Value} {text text' : String} : Memory.render ⟨s, texts⟩ v = .ok text →
    Memory.render ⟨ρ.store s, texts'⟩ (ρ.value v) = .ok text' →
    Fails s (.badSyntax (.notExpected text)) (.badSyntax (.notExpected text'))

/-- The outcomes of steps on a memory and of others on the renamed one: the results are those that
`f` takes to each other, and the state is renamed. -/
inductive Matches {α β : Type} (f : α → β) :
    EStateM.Result EvalError EvalState α → EStateM.Result EvalError EvalState β → Prop
  | ok (a : α) (st : EvalState) : Matches f (.ok a st) (.ok (f a) (ρ.state st))
  | error {e e' : EvalError} (st : EvalState) : ρ.Fails st.store e e' →
    Matches f (.error e st) (.error e' (ρ.state st))

/-- What the first steps do on a memory, the second ones do on the renamed memory. -/
def Renames {α β : Type} (f : α → β) (m : EvalM α) (m' : EvalM β) : Prop :=
  ∀ maxDepth st, ρ.Matches f (m ⟨texts, maxDepth⟩ st) (m' ⟨texts', maxDepth⟩ (ρ.state st))

/-! ## Rules -/

@[simp] theorem store_state (st : EvalState) : (ρ.state st).store = ρ.store st.store := rfl

namespace Renames

variable {α β γ δ : Type} {ρ} {f : α → β} {g : γ → δ} {m : EvalM α} {m' : EvalM β}

theorem pure {a : α} {b : β} (h : b = f a) : ρ.Renames f (Pure.pure a) (Pure.pure b) := by
  subst h
  exact fun _ st => .ok a st

theorem throw {e : EvalError} (h : e.quotes = false) :
    ρ.Renames f (throw e) (MonadExcept.throw e) :=
  fun _ st => .error st (.same h)

theorem fail {fault : SyntaxFault} (h : fault.quotes = false) :
    ρ.Renames f (EvalM.fail fault) (EvalM.fail fault) := throw h

theorem bind {k : α → EvalM γ} {k' : β → EvalM δ} (h : ρ.Renames f m m')
    (hk : ∀ a, ρ.Renames g (k a) (k' (f a))) : ρ.Renames g (m >>= k) (m' >>= k') := by
  intro maxDepth st
  have hfirst := h maxDepth st
  generalize hm : m ⟨texts, maxDepth⟩ st = result at hfirst
  generalize hm' : m' ⟨texts', maxDepth⟩ (ρ.state st) = result' at hfirst
  cases hfirst with
  | ok a st' =>
    rw [reader_bind_of_ok hm, reader_bind_of_ok hm']
    exact hk a maxDepth st'
  | error st' hfails =>
    rw [reader_bind_of_error hm, reader_bind_of_error hm']
    exact .error st' hfails

theorem map {k : α → γ} {k' : β → δ} (h : ρ.Renames f m m') (hk : ∀ a, k' (f a) = g (k a)) :
    ρ.Renames g (k <$> m) (k' <$> m') := by
  rw [← bind_pure_comp, ← bind_pure_comp]
  exact h.bind fun a => pure (hk a)

theorem ofStoreM {action : StoreM α} {action' : StoreM β} (h : ρ.Follows f action action') :
    ρ.Renames f (EvalM.ofStoreM action) (EvalM.ofStoreM action') := by
  intro maxDepth st
  have hstore := h st.store
  simp only [EvalM.ofStoreM, state, hstore]
  cases action st.store with
  | ok a s => exact .ok a { st with store := s }
  | error e s => exact .error { st with store := s } (.same (EvalError.quotes_ofStore e))

theorem ask {question : Store → Except StoreError α} {question' : Store → Except StoreError β}
    (h : ∀ s, question' (ρ.store s) = (question s).map f) :
    ρ.Renames f (EvalM.ask question) (EvalM.ask question') := ofStoreM (.read h)

theorem askMemory {question : Memory → Except EvalError α}
    {question' : Memory → Except EvalError β}
    (h : ∀ s, EndsAlike (fun a b => b = f a) (question ⟨s, texts⟩)
      (question' ⟨ρ.store s, texts'⟩)) :
    ρ.Renames f (EvalM.askMemory question) (EvalM.askMemory question') := by
  intro maxDepth st
  have hanswer := h st.store
  simp only [askMemory_apply, state]
  generalize question ⟨st.store, texts⟩ = result at hanswer
  generalize question' ⟨ρ.store st.store, texts'⟩ = result' at hanswer
  cases hanswer with
  | ok h =>
    subst h
    exact .ok _ st
  | error h => exact .error st (.same h)

theorem nested (h : ρ.Renames f m m') : ρ.Renames f (EvalM.nested m) (EvalM.nested m') := by
  intro maxDepth st
  have hinside := h maxDepth { st with depth := st.depth + 1 }
  by_cases hdepth : maxDepth ≤ st.depth
  · simp only [EvalM.nested, state, hdepth, if_true]
    exact .error (e := .tooDeep maxDepth) st (.same rfl)
  · simp only [EvalM.nested, state, hdepth, if_false] at hinside ⊢
    generalize m ⟨texts, maxDepth⟩ { st with depth := st.depth + 1 } = result at hinside
    generalize m' ⟨texts', maxDepth⟩ ⟨ρ.store st.store, st.cursor, st.depth + 1⟩ = result'
      at hinside
    cases hinside with
    | ok a st' => exact .ok a { st' with depth := st'.depth - 1 }
    | error st' hfails => exact .error { st' with depth := st'.depth - 1 } hfails

theorem onTokens (tokens : ListRef) (h : ρ.Renames f m m') :
    ρ.Renames (Prod.map f id) (EvalM.onTokens tokens m) (EvalM.onTokens tokens m') := by
  intro maxDepth st
  have hinside := h maxDepth { st with cursor := tokens }
  simp only [EvalM.onTokens, state] at hinside ⊢
  generalize m ⟨texts, maxDepth⟩ { st with cursor := tokens } = result at hinside
  generalize m' ⟨texts', maxDepth⟩ ⟨ρ.store st.store, tokens, st.depth⟩ = result' at hinside
  cases hinside with
  | ok a st' => exact .ok (a, st'.cursor) { st' with cursor := st.cursor }
  | error st' hfails => exact .error { st' with cursor := st.cursor } hfails

end Renames

/-! ## Tokens -/

theorem renames_get : ρ.Renames ρ.state get get := fun _ st => .ok st st

theorem renames_moveTo (cursor : ListRef) : ρ.Renames id (moveTo cursor) (moveTo cursor) :=
  fun _ st => .ok () { st with cursor }

theorem renames_look? : ρ.Renames (Option.map (Prod.map ρ.value id)) look? look? :=
  ρ.renames_get.bind fun st => .ask fun s => ρ.split_store s st.cursor

theorem renames_next {atEnd : SyntaxFault} (hend : atEnd.quotes = false) :
    ρ.Renames ρ.value (next atEnd) (next atEnd) := by
  refine ρ.renames_look?.bind fun found => ?_
  cases found with
  | none => exact .fail hend
  | some parts => exact (ρ.renames_moveTo parts.2).bind fun _ => .pure rfl

theorem renames_resolve (name : TextRef) :
    ρ.Renames rename (resolve name) (resolve (ρ.atom name)) := by
  refine .askMemory fun s => ?_
  dsimp only
  rw [ρ.resolve_atom]
  exact .ofStore (texts.resolve name) rename

/-- Failing with a name. -/
theorem renames_blame {α β : Type} {f : α → β} {blame : String → EvalError} {name : TextRef}
    (h : ∀ s text, ρ.Fails s (blame text) (blame (rename text))) :
    ρ.Renames f (do throw (blame (← resolve name))) (do throw (blame (← resolve (ρ.atom name)))) :=
  (ρ.renames_resolve name).bind fun text _ st => .error st (h _ text)

/-- Failing with the text of a value. -/
theorem renames_quote {α β : Type} {f : α → β} {quote : String → EvalError} {v : Value}
    (h : ∀ s text text', Memory.render ⟨s, texts⟩ v = .ok text →
      Memory.render ⟨ρ.store s, texts'⟩ (ρ.value v) = .ok text' →
      ρ.Fails s (quote text) (quote text')) :
    ρ.Renames f (do throw (quote (← askMemory (·.render v))))
      (do throw (quote (← askMemory (·.render (ρ.value v))))) := by
  intro maxDepth st
  have hrender := ρ.endsAlike_render st.store v
  cases htext : Memory.render ⟨st.store, texts⟩ v with
  | ok text =>
    cases htext' : Memory.render ⟨ρ.store st.store, texts'⟩ (ρ.value v) with
    | ok text' =>
      have hread : askMemory (·.render v) ⟨texts, maxDepth⟩ st = .ok text st := by
        simp only [askMemory_apply, htext]
      have hread' : askMemory (·.render (ρ.value v)) ⟨texts', maxDepth⟩ (ρ.state st) =
          .ok text' (ρ.state st) := by
        simp only [askMemory_apply, store_state, htext']
      rw [reader_bind_of_ok hread, reader_bind_of_ok hread']
      exact .error st (h _ _ _ htext htext')
    | error e =>
      rw [htext, htext'] at hrender
      cases hrender
  | error e =>
    cases htext' : Memory.render ⟨ρ.store st.store, texts'⟩ (ρ.value v) with
    | ok text' =>
      rw [htext, htext'] at hrender
      cases hrender
    | error e' =>
      rw [htext, htext'] at hrender
      have hread : askMemory (·.render v) ⟨texts, maxDepth⟩ st = .error e st := by
        simp only [askMemory_apply, htext]
      have hread' : askMemory (·.render (ρ.value v)) ⟨texts', maxDepth⟩ (ρ.state st) =
          .error e' (ρ.state st) := by
        simp only [askMemory_apply, store_state, htext']
      rw [reader_bind_of_error hread, reader_bind_of_error hread']
      cases hrender with
      | error he => exact .error st (.same he)

/-! ### Runs of tokens -/

/-- What a token does to a run, and the renamed token to the renamed run. -/
inductive StepsAlike {σ α β : Type} (g : σ → σ) (f : α → β) :
    Except SyntaxFault (Progress σ α) → Except SyntaxFault (Progress σ β) → Prop
  | more {run run' : σ} : run' = g run → StepsAlike g f (.ok (.more run)) (.ok (.more run'))
  | done {a : α} {b : β} : b = f a → StepsAlike g f (.ok (.done a)) (.ok (.done b))
  | error {fault : SyntaxFault} : fault.quotes = false →
    StepsAlike g f (.error fault) (.error fault)

theorem renames_consume {σ α β : Type} {g : σ → σ} {f : α → β} {atEnd : σ → SyntaxFault}
    {step : σ → Value → Except SyntaxFault (Progress σ α)}
    {step' : σ → Value → Except SyntaxFault (Progress σ β)}
    (hstep : ∀ run token, StepsAlike g f (step run token) (step' (g run) (ρ.value token)))
    (hend : ∀ run, (atEnd run).quotes = false ∧ atEnd (g run) = atEnd run)
    {run run' : σ} (hrun : run' = g run) :
    ρ.Renames f (consume atEnd step run) (consume atEnd step' run') := by
  subst hrun
  refine ρ.renames_get.bind fun st => ?_
  change ρ.Renames f (consumeWithin atEnd step st.store.maxSteps run)
    (consumeWithin atEnd step' st.store.maxSteps (g run))
  induction st.store.maxSteps generalizing run with
  | zero =>
    simp only [consumeWithin, (hend run).2]
    exact .fail (hend run).1
  | succ steps ih =>
    simp only [consumeWithin, (hend run).2]
    refine (ρ.renames_next (hend run).1).bind fun token => ?_
    have halike := hstep run token
    generalize step run token = outcome at halike
    generalize step' (g run) (ρ.value token) = outcome' at halike
    cases halike with
    | more h =>
      subst h
      exact ih
    | done h => exact .pure h
    | error h => exact .fail h

def formalRun (run : FormalRun) : FormalRun := { run with entries := run.entries.map ρ.value }

def bodyRun (run : BodyRun) : BodyRun := { run with tokens := run.tokens.map ρ.value }

def argumentRun (run : ArgumentRun) : ArgumentRun :=
  { run with tokens := run.tokens.map ρ.value }

theorem stepsAlike_formal (run : FormalRun) (token : Value) :
    StepsAlike ρ.formalRun (List.map ρ.value) (formalStep run token)
      (formalStep (ρ.formalRun run) (ρ.value token)) := by
  obtain ⟨marked, entries⟩ := run
  simp only [formalRun]
  cases token with
  | atom name => cases marked <;> exact .more (by simp [formalRun, value])
  | delimiter c =>
    cases marked with
    | true => exact .error rfl
    | false =>
      by_cases hcolon : c = ':'
      · subst hcolon
        exact .done (by simp)
      · by_cases hmark : c = '!'
        · subst hmark
          exact .more rfl
        · have hfail : ∀ entries, formalStep ⟨false, entries⟩ (.delimiter c) =
              .error .formalExpected := by
            intro entries
            simp [formalStep, hcolon, hmark]
          simp only [value, hfail]
          exact .error rfl
  | _ => cases marked <;> exact .error rfl

theorem stepsAlike_body (run : BodyRun) (token : Value) :
    StepsAlike ρ.bodyRun (List.map ρ.value) (bodyStep run token)
      (bodyStep (ρ.bodyRun run) (ρ.value token)) := by
  obtain ⟨braces, tokens⟩ := run
  simp only [bodyRun]
  cases token with
  | delimiter c =>
    by_cases hclose : c = '}'
    · subst hclose
      cases braces with
      | zero => exact .done (by simp)
      | succ braces => exact .more (by simp [bodyRun, value])
    · by_cases hopen : c = '{'
      · subst hopen
        exact .more (by simp [bodyRun, value])
      · have hkept : ∀ tokens, bodyStep ⟨braces, tokens⟩ (.delimiter c) =
            .ok (.more ⟨braces, tokens.push (.delimiter c)⟩) := by
          intro tokens
          simp [bodyStep, hclose, hopen]
        simp only [value, hkept]
        exact .more (by simp [bodyRun, value])
  | _ => exact .more (by simp [bodyRun, value])

theorem stepsAlike_argument (run : ArgumentRun) (token : Value) :
    StepsAlike ρ.argumentRun (Prod.map (List.map ρ.value) id) (argumentStep run token)
      (argumentStep (ρ.argumentRun run) (ρ.value token)) := by
  obtain ⟨parens, braces, tokens⟩ := run
  have hpush : (tokens.map ρ.value).push (ρ.value token) = (tokens.push token).map ρ.value :=
    Array.map_push.symm
  have hempty : (tokens.map ρ.value).isEmpty = tokens.isEmpty := by
    simp only [Array.isEmpty, Array.size_map]
  unfold argumentStep
  simp only [argumentRun, ofToken?_value, hpush, hempty]
  split
  · split
    · exact .error rfl
    · exact .done (by simp)
  · cases token with
    | delimiter c =>
      simp only [value]
      split
      · exact .more rfl
      · exact .more rfl
      · exact .more rfl
      · exact .error rfl
      · exact .more rfl
      · exact .error rfl
      · exact .more rfl
    | _ => exact .more rfl

theorem stepsAlike_leave (run : GroupRun) (found : Char) :
    StepsAlike (α := Unit) (β := Unit) id id (run.leave found) (run.leave found) := by
  unfold GroupRun.leave
  split
  · split
    · exact .done rfl
    · exact .more rfl
  · exact .error rfl

theorem stepsAlike_group (run : GroupRun) (token : Value) :
    StepsAlike id id (groupStep run token) (groupStep run (ρ.value token)) := by
  cases token with
  | delimiter c =>
    simp only [value]
    unfold groupStep
    split
    · exact .more rfl
    · exact .more rfl
    · exact stepsAlike_leave run ')'
    · exact stepsAlike_leave run '}'
    · exact .more rfl
  | _ => exact .more rfl

theorem renames_closure (env : Environment) :
    ρ.Renames ρ.value (closure env) (closure env) := by
  have hformals : ρ.Renames (List.map ρ.value) (consume (fun _ => .endOfText) formalStep {})
      (consume (fun _ => .endOfText) formalStep {}) :=
    ρ.renames_consume ρ.stepsAlike_formal (fun _ => ⟨rfl, rfl⟩) (by simp [formalRun])
  have hbody : ρ.Renames (List.map ρ.value) (consume (fun _ => .unclosedClosure) bodyStep {})
      (consume (fun _ => .unclosedClosure) bodyStep {}) :=
    ρ.renames_consume ρ.stepsAlike_body (fun _ => ⟨rfl, rfl⟩) (by simp [bodyRun])
  refine hformals.bind fun formals => hbody.bind fun body => .ofStoreM ?_
  refine (ρ.follows_ofList formals).bind fun formals => ?_
  exact (ρ.follows_ofList body).bind fun body => ρ.follows_build ⟨formals, body, env.frames⟩

theorem renames_captureArgument :
    ρ.Renames id captureArgument captureArgument := by
  have hargument : ρ.Renames (Prod.map (List.map ρ.value) id)
      (consume (fun _ => .endInArgument) argumentStep {})
      (consume (fun _ => .endInArgument) argumentStep {}) :=
    ρ.renames_consume ρ.stepsAlike_argument (fun _ => ⟨rfl, rfl⟩) (by simp [argumentRun])
  refine hargument.bind fun argument => ?_
  exact (Renames.ofStoreM (ρ.follows_ofList argument.1)).bind fun tokens => .pure rfl

/-! ## Names -/

/-- A name has the renamed value, or the failure to read it names the new name. -/
theorem renames_lookupName (name : TextRef) (env : Environment) :
    ρ.Renames ρ.value (lookupName name env) (lookupName (ρ.atom name) env) := by
  refine (Renames.ask fun s => ρ.lookup_store s env name).bind fun found => ?_
  cases found with
  | absent => exact ρ.renames_blame fun _ => .undefinedVariable
  | deferred ref =>
    refine (Renames.ask fun s => ρ.slot_store s ref).bind fun slot => ?_
    cases hvalue : slot.value? with
    | some v =>
      simp only [Renaming.slot, hvalue, Option.map_some]
      exact .pure rfl
    | none =>
      simp only [Renaming.slot, hvalue, Option.map_none]
      exact ρ.renames_blame fun _ => .unresolvedDeferred
  | _ => exact .pure rfl

/-! ## Operands -/

section Operations

theorem renames_mismatch {α β : Type} {f : α → β} (op : Keyword) (expected : Expectation)
    (found : String) : ρ.Renames f (mismatch op expected found) (mismatch op expected found) :=
  .throw rfl

variable {ρ} {operand operand' : EvalM Value} (ho : ρ.Renames ρ.value operand operand')

include ho

theorem renames_numberOperand (op : Keyword) :
    ρ.Renames id (numberOperand operand op) (numberOperand operand' op) := by
  refine ho.bind fun v => ?_
  rw [number?_value, typeName_value]
  cases v.number? with
  | some n => exact .pure rfl
  | none => exact ρ.renames_mismatch op _ _

theorem renames_listOperand (op : Keyword) :
    ρ.Renames id (listOperand operand op) (listOperand operand' op) := by
  refine ho.bind fun v => ?_
  rw [list?_value, typeName_value]
  cases v.list? with
  | some items => exact .pure rfl
  | none => exact ρ.renames_mismatch op _ _

/-- Renaming keeps apart what was apart, so that operands are equal as they were. -/
theorem renames_equalOperands (op : Keyword) :
    ρ.Renames id (equalOperands operand op) (equalOperands operand' op) := by
  refine ho.bind fun v => ho.bind fun w => ?_
  have hrefuse : ρ.Renames (id : Bool → Bool)
      (if v.typeName = w.typeName then mismatch op .comparable v.typeName
        else mismatch op .sameType s!"{v.typeName} and {w.typeName}")
      (if (ρ.value v).typeName = (ρ.value w).typeName then
        mismatch op .comparable (ρ.value v).typeName
        else mismatch op .sameType s!"{(ρ.value v).typeName} and {(ρ.value w).typeName}") := by
    rw [typeName_value, typeName_value]
    split
    · exact ρ.renames_mismatch op _ _
    · exact ρ.renames_mismatch op _ _
  cases v with
  | number =>
    cases w with
    | number => exact .pure rfl
    | _ => exact hrefuse
  | string text =>
    cases w with
    | string text' => exact .pure (beq_of_injective ρ.string_injective text text')
    | _ => exact hrefuse
  | atom name =>
    cases w with
    | atom name' => exact .pure (beq_of_injective ρ.atom_injective name name')
    | _ => exact hrefuse
  | _ => cases w <;> exact hrefuse

variable {skip skip' : EvalM Unit} (hs : ρ.Renames id skip skip')
include hs

theorem renames_condition :
    ρ.Renames ρ.value (condition operand skip) (condition operand' skip') := by
  refine (renames_numberOperand ho .cond).bind fun flag => ?_
  dsimp only [id]
  split
  · exact hs.bind fun _ => ho
  · exact ho.bind fun v => hs.bind fun _ => .pure rfl

theorem renames_applyKeyword (op : Keyword) :
    ρ.Renames ρ.value (applyKeyword operand skip op) (applyKeyword operand' skip' op) := by
  unfold applyKeyword
  split
  · refine (renames_numberOperand ho _).bind fun x => ?_
    exact (renames_numberOperand ho _).bind fun y => .pure rfl
  · exact (renames_equalOperands ho _).map fun equal => rfl
  · exact (renames_equalOperands ho _).map fun equal => rfl
  · exact renames_condition ho hs
  · refine ho.bind fun item => (renames_listOperand ho _).bind fun items => ?_
    exact (Renames.ofStoreM (ρ.follows_push items item)).map fun _ => rfl
  · refine (renames_listOperand ho _).bind fun items => ?_
    refine (Renames.ask fun s => ρ.head?_store s items).bind fun head => ?_
    cases head with
    | some head => exact .pure rfl
    | none => exact ρ.renames_mismatch _ _ _
  · refine (renames_listOperand ho _).bind fun items => ?_
    refine (Renames.ask (f := id) fun s => ?_).map fun _ => rfl
    rw [id, tail_store]
    cases s.tail items <;> rfl
  · refine ho.bind fun v => ?_
    cases v <;> exact .pure rfl
  · exact .pure rfl

end Operations

/-! ## Calls -/

section Calls

theorem renames_expect (delimiter : Char) :
    ρ.Renames id (expect delimiter) (expect delimiter) := by
  refine ρ.renames_look?.bind fun found => ?_
  cases found with
  | none => exact .fail rfl
  | some parts =>
    simp only [Option.map_some, Prod.map, isDelimiter_value]
    split
    · exact ρ.renames_moveTo parts.2
    · exact .fail rfl

theorem renames_separator : ρ.Renames id separator separator := by
  refine ρ.renames_look?.bind fun found => ?_
  cases found with
  | none => exact .fail rfl
  | some parts =>
    simp only [Option.map_some, Prod.map, ofToken?_value]
    cases Separator.ofToken? parts.1 with
    | some separator => exact (ρ.renames_moveTo parts.2).bind fun _ => .pure rfl
    | none => exact .fail rfl

theorem renames_checkSeparator (last : Bool) (separator : Separator) :
    ρ.Renames id (checkSeparator last separator) (checkSeparator last separator) := by
  cases separator with
  | close =>
    cases last with
    | true => exact .pure rfl
    | false => exact .fail rfl
  | comma =>
    cases last with
    | true => exact .fail rfl
    | false => exact .pure rfl

variable {ρ} {eval eval' : Environment → EvalM Value}
  (he : ∀ env, ρ.Renames ρ.value (eval env) (eval' env)) (env : Environment)
include he

theorem renames_bindActual (f : Formal) :
    ρ.Renames (Prod.map ρ.actual id) (bindActual eval env f)
      (bindActual eval' env (ρ.formal f)) := by
  obtain ⟨mode, name⟩ := f
  cases mode with
  | eager => exact (he env).bind fun v => ρ.renames_separator.bind fun _ => .pure rfl
  | deferred =>
    refine ρ.renames_captureArgument.bind fun captured => ?_
    exact (Renames.ofStoreM (ρ.follows_newSlot name captured.1)).bind fun slot => .pure rfl

theorem renames_bindActuals (formals : List Formal) :
    ρ.Renames (List.map (Prod.map ρ.atom ρ.actual)) (bindActuals eval env formals)
      (bindActuals eval' env (formals.map ρ.formal)) := by
  induction formals with
  | nil => exact .pure rfl
  | cons f formals ih =>
    refine (renames_bindActual he env f).bind fun bound => ?_
    rw [List.isEmpty_map]
    refine (ρ.renames_checkSeparator formals.isEmpty bound.2).bind fun _ => ?_
    exact ih.bind fun actuals => .pure rfl

theorem renames_settle (a : Actual) :
    ρ.Renames id (settle eval env a) (settle eval' env (ρ.actual a)) := by
  cases a with
  | evaluated v => exact .pure rfl
  | captured ref =>
    refine (Renames.ask fun s => ρ.slot_store s ref).bind fun slot => ?_
    refine ((he env).onTokens slot.tokens).bind fun settled => ?_
    obtain ⟨v, left⟩ := settled
    dsimp only [Prod.map, id]
    split
    · exact .ofStoreM (ρ.follows_fill ref v)
    · exact ρ.renames_blame fun _ => .trailingArgument

theorem renames_settleAll (actuals : List (TextRef × Actual)) :
    ρ.Renames id (actuals.forM fun (_, a) => settle eval env a)
      ((actuals.map (Prod.map ρ.atom ρ.actual)).forM fun (_, a) => settle eval' env a) := by
  induction actuals with
  | nil => exact .pure rfl
  | cons entry actuals ih => exact (renames_settle he env entry.2).bind fun _ => ih

theorem renames_runBody (body : ListRef) :
    ρ.Renames ρ.value (runBody eval env body) (runBody eval' env body) := by
  refine ((he env).onTokens body).bind fun ended => ?_
  obtain ⟨v, left⟩ := ended
  dsimp only [Prod.map, id]
  split
  · exact .pure rfl
  · exact .fail rfl

/-- A call binds the new names to what the call before bound the old ones to. -/
theorem renames_call (callee : Closure) :
    ρ.Renames ρ.value (call eval env callee) (call eval' env callee) := by
  refine (Renames.askMemory fun s => ρ.endsAlike_formalList s callee).bind fun formals => ?_
  cases formals with
  | nil => exact (ρ.renames_expect ')').bind fun _ => renames_runBody he ⟨callee.env⟩ callee.body
  | cons f formals =>
    refine (renames_bindActuals he env (f :: formals)).bind fun actuals => ?_
    have hbindings : (actuals.map (Prod.map ρ.atom ρ.actual)).map
        (fun (name, a) => (name, a.toValue)) =
        (actuals.map fun (name, a) => (name, a.toValue)).map (Prod.map ρ.atom ρ.value) := by
      simp [Function.comp_def]
    rw [hbindings]
    refine (Renames.ofStoreM (ρ.follows_extend ⟨callee.env⟩ _)).bind fun inner => ?_
    exact (renames_settleAll he inner actuals).bind fun _ => renames_runBody he inner callee.body

end Calls

/-! ## Terms -/

section Terms

theorem renames_unexpected {α β : Type} {f : α → β} (token : Value) :
    ρ.Renames f (unexpected token) (unexpected (ρ.value token)) :=
  ρ.renames_quote fun _ _ _ => .notExpected

variable {ρ} {skip skip' : EvalM Unit} (hs : ρ.Renames id skip skip')

theorem renames_times {action action' : EvalM Unit} (h : ρ.Renames id action action') (n : Nat) :
    ρ.Renames id (times n action) (times n action') := by
  induction n with
  | zero => exact .pure rfl
  | succ n ih => exact h.bind fun _ => ih

variable {eval eval' : Environment → EvalM Value}
  (he : ∀ env, ρ.Renames ρ.value (eval env) (eval' env)) (env : Environment)

include hs

theorem renames_skipWith : ρ.Renames id (skipWith skip) (skipWith skip') := by
  have hgroup : ∀ closer, ρ.Renames id
      (consume (fun run => .closerExpected run.closer) groupStep { closer })
      (consume (fun run => .closerExpected run.closer) groupStep { closer }) := fun closer =>
    ρ.renames_consume ρ.stepsAlike_group (fun _ => ⟨rfl, rfl⟩) rfl
  refine (ρ.renames_next rfl).bind fun token => ?_
  cases token with
  | number => exact .pure rfl
  | string => exact .pure rfl
  | atom => exact .pure rfl
  | keyword op => exact renames_times hs op.arity
  | delimiter c =>
    by_cases hparen : c = '('
    · subst hparen
      exact hgroup ')'
    · by_cases hbrace : c = '{'
      · subst hbrace
        exact hgroup '}'
      · simp only [value, Value.delimiter.injEq, hparen, hbrace, imp_self]
        exact ρ.renames_unexpected _
  | _ => exact ρ.renames_unexpected _

include he

theorem renames_application :
    ρ.Renames ρ.value (application eval skip env) (application eval' skip' env) := by
  refine ρ.renames_look?.bind fun found => ?_
  cases found with
  | none => exact .fail rfl
  | some parts =>
    obtain ⟨token, rest⟩ := parts
    cases token with
    | keyword op =>
      refine (ρ.renames_moveTo rest).bind fun _ => ?_
      refine (renames_applyKeyword (he env) hs op).nested.bind fun v => ?_
      exact (ρ.renames_expect ')').bind fun _ => .pure rfl
    | _ =>
      -- the token is left to the function, which is called as a closure
      refine (he env).bind fun callee => ?_
      cases callee with
      | closure parts =>
        refine (Renames.askMemory (f := id) fun s => ρ.endsAlike_closureOfList s parts).bind
          fun callee => ?_
        exact renames_call he env callee
      | _ => exact ρ.renames_quote fun _ _ _ => .notAFunction

theorem renames_termWith :
    ρ.Renames ρ.value (termWith eval skip env) (termWith eval' skip' env) := by
  refine (ρ.renames_next rfl).bind fun token => ?_
  cases token with
  | number => exact .pure rfl
  | string => exact .pure rfl
  | atom name => exact ρ.renames_lookupName name env
  | keyword op => exact renames_applyKeyword (he env) hs op
  | delimiter c =>
    by_cases hbrace : c = '{'
    · subst hbrace
      exact ρ.renames_closure env
    · by_cases hparen : c = '('
      · subst hparen
        exact renames_application hs he env
      · simp only [value, Value.delimiter.injEq, hparen, hbrace, imp_self]
        exact ρ.renames_unexpected _
  | _ => exact ρ.renames_unexpected _

omit hs he

theorem renames_tooDeep {α β : Type} {f : α → β} : ρ.Renames f tooDeep tooDeep :=
  fun maxDepth st => .error (e := .tooDeep maxDepth) st (.same rfl)

theorem renames_skipWithin (levels : Nat) :
    ρ.Renames id (skipWithin levels) (skipWithin levels) := by
  induction levels with
  | zero => exact renames_tooDeep
  | succ levels ih => exact (renames_skipWith ih).nested

theorem renames_evaluateWithin (levels : Nat) (env : Environment) :
    ρ.Renames ρ.value (evaluateWithin levels env) (evaluateWithin levels env) := by
  induction levels generalizing env with
  | zero => exact renames_tooDeep
  | succ levels ih => exact (renames_termWith (renames_skipWithin levels) ih env).nested

theorem renames_evaluate : ρ.Renames ρ.value (evaluate env) (evaluate env) := by
  have hlevels : ρ.Renames id levelsLeft levelsLeft :=
    fun maxDepth st => .ok (maxDepth - st.depth) st
  exact hlevels.bind fun levels => renames_evaluateWithin levels env

end Terms

/-! ## Interpreters -/

/-- A result and the renamed one, behind an evaluation that has left a store. -/
inductive MatchesResult (s : Store) : Except EvalError Value → Except EvalError Value → Prop
  | ok (v : Value) : MatchesResult s (.ok v) (.ok (ρ.value v))
  | error {e e' : EvalError} : ρ.Fails s e e' → MatchesResult s (.error e) (.error e')

/-- An outcome and the renamed one. As many cells and slots are in use. -/
structure MatchesOutcome (outcome outcome' : Interpreter.Outcome Value) : Prop where
  result : ρ.MatchesResult outcome.interpreter.memory.store outcome.result outcome'.result
  rest : outcome'.rest = outcome.rest
  interpreter : outcome'.interpreter = ρ.interpreter outcome.interpreter
  cells : outcome'.interpreter.memory.store.used = outcome.interpreter.memory.store.used
  slots : outcome'.interpreter.memory.store.slots.size =
    outcome.interpreter.memory.store.slots.size

end Renaming

namespace Interpreter

/-- Evaluating renamed tokens in a renamed environment gives the renamed outcome. -/
theorem perform_renamed {rename : String → String} (hrename : Function.Injective rename)
    (i : Interpreter) (hdistinct : i.memory.texts.Distinct) :
    (∃ texts', texts'.Distinct ∧ Nonempty (Renaming rename i.memory.texts texts')) ∧
      ∀ (texts' : TextTable) (ρ : Renaming rename i.memory.texts texts') (tokens : ListRef)
        (env : Environment),
        ρ.MatchesOutcome (i.perform tokens (evaluate env))
          ((ρ.interpreter i).perform tokens (evaluate env)) := by
  refine ⟨Renaming.exists_table hrename hdistinct, fun texts' ρ tokens env => ?_⟩
  obtain ⟨config, ⟨store, texts⟩, depth⟩ := i
  have hevaluated := Renaming.renames_evaluate (ρ := ρ) env config.maxDepth ⟨store, tokens, depth⟩
  simp only [perform, Renaming.interpreter, Renaming.memory, Renaming.state] at hevaluated ⊢
  generalize evaluate env ⟨texts, config.maxDepth⟩ ⟨store, tokens, depth⟩ = result at hevaluated ⊢
  generalize evaluate env ⟨texts', config.maxDepth⟩ ⟨ρ.store store, tokens, depth⟩ = result'
    at hevaluated ⊢
  cases hevaluated with
  | ok v st => exact ⟨.ok v, rfl, rfl, rfl, Array.size_map⟩
  | error st hfails => exact ⟨.error hfails, rfl, rfl, rfl, Array.size_map⟩

/-- All names of a call get an underscore in front. That of the one without a value is reported. -/
theorem perform_renamed_underscore :
    (Function.Injective fun name : String => "_" ++ name) ∧
      ((new {}).after [.run "({x: ADD x y} 1)"]).memory.texts.Distinct ∧
      (∃ texts', texts'.Distinct ∧ Nonempty (Renaming (fun name => "_" ++ name)
        ((new {}).after [.run "({x: ADD x y} 1)"]).memory.texts texts')) ∧
      ∀ (texts' : TextTable) (ρ : Renaming (fun name => "_" ++ name)
        ((new {}).after [.run "({x: ADD x y} 1)"]).memory.texts texts'),
        ρ.MatchesOutcome
          (((new {}).after [.run "({x: ADD x y} 1)"]).perform (.chain ⟨19, 1⟩) (evaluate {}))
          ((ρ.interpreter ((new {}).after [.run "({x: ADD x y} 1)"])).perform (.chain ⟨19, 1⟩)
            (evaluate {})) := by
  have hinjective : Function.Injective fun name : String => "_" ++ name := fun a b h => by
    simpa using h
  have hready := (ready_new {}).after [.run "({x: ADD x y} 1)"]
  have hrenamed := perform_renamed hinjective _ hready.distinct
  exact ⟨hinjective, hready.distinct, hrenamed.1, fun texts' ρ => hrenamed.2 texts' ρ _ _⟩

end Interpreter

end BraceLang
