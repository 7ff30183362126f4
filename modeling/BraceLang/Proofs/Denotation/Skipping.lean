import BraceLang.Interpreter
import BraceLang.Proofs.Denotation.Terms

/-!
# What skipping does to the memory

A term that is skipped is read and nothing else. Whatever stands at the cursor, the store is the
same afterwards, and the text table is not in reach. Where tokens stand there, skipping fails for
the form of the program or for want of levels.

* `EvalM.LeavesStore`: actions that leave the store as it is, whatever their outcome.
* `EvalM.FailsOnTokens`: how an action can fail where tokens stand at the cursor.
* `leavesStore_skipTerm`, `failsOnTokens_skipTerm`: skipping a term.
-/

namespace BraceLang

/-- The store is the same. -/
def EvalState.SameStore (st st' : EvalState) : Prop := st'.store = st.store

instance : IsPreorder EvalState EvalState.SameStore where
  refl := fun _ => rfl
  trans := fun _ _ _ h h' => h'.trans h

namespace EvalM

variable {α β σ : Type}

/-! ## The store -/

/-- Whatever the outcome, the store is the same. -/
def LeavesStore (m : EvalM α) : Prop := ∀ context, Keeps EvalState.SameStore (m context)

namespace LeavesStore

theorem pure (a : α) : LeavesStore (Pure.pure a : EvalM α) := fun _ => Keeps.pure a

theorem throw (e : EvalError) : LeavesStore (MonadExcept.throw e : EvalM α) :=
  fun _ => Keeps.throw e

theorem bind {m : EvalM α} {f : α → EvalM β} (hm : LeavesStore m) (hf : ∀ a, LeavesStore (f a)) :
    LeavesStore (m >>= f) := fun context => (hm context).bind fun a => hf a context

theorem get : LeavesStore (MonadState.get : EvalM EvalState) := fun _ _ => rfl

theorem read : LeavesStore (MonadReader.read : EvalM EvalContext) := fun _ _ => rfl

theorem ask (question : Store → Except StoreError α) : LeavesStore (ask question) := by
  rintro context ⟨store, cursor, depth⟩
  unfold EvalM.ask ofStoreM Store.read
  cases hanswer : question store <;> simp only [hanswer] <;> rfl

theorem askMemory (question : Memory → Except EvalError α) : LeavesStore (askMemory question) := by
  refine get.bind fun st => read.bind fun context => ?_
  cases question ⟨st.store, context.texts⟩ with
  | ok a => exact pure a
  | error e => exact throw e

theorem next (atEnd : SyntaxFault) : LeavesStore (next atEnd) := by
  refine (get.bind fun _ => ask _).bind fun found => ?_
  cases found with
  | none => exact throw _
  | some parts => exact LeavesStore.bind (fun _ _ => rfl) fun _ => pure _

theorem consume (atEnd : σ → SyntaxFault)
    (step : σ → Value → Except SyntaxFault (Progress σ α)) (state : σ) :
    LeavesStore (consume atEnd step state) := by
  refine get.bind fun st => ?_
  generalize st.store.maxSteps = steps
  induction steps generalizing state with
  | zero => exact throw _
  | succ steps ih =>
    refine (next _).bind fun token => ?_
    split
    · exact ih _
    · exact pure _
    · exact throw _

theorem nested {action : EvalM α} (h : LeavesStore action) : LeavesStore (nested action) := by
  rintro context ⟨store, cursor, depth⟩
  have hinner := h context ⟨store, cursor, depth + 1⟩
  unfold EvalM.nested
  by_cases hdeep : context.maxDepth ≤ depth
  · simp only [if_pos hdeep]
    rfl
  · simp only [if_neg hdeep]
    cases hrun : action context ⟨store, cursor, depth + 1⟩ with
    | ok a st' =>
      rw [hrun] at hinner
      exact hinner
    | error e st' =>
      rw [hrun] at hinner
      exact hinner

theorem times {action : EvalM Unit} (h : LeavesStore action) (n : Nat) :
    LeavesStore (times n action) := by
  induction n with
  | zero => exact pure _
  | succ n ih => exact h.bind fun _ => ih

theorem skipWith {skip : EvalM Unit} (hs : LeavesStore skip) : LeavesStore (skipWith skip) := by
  refine (next _).bind fun token => ?_
  split
  · exact pure _
  · exact pure _
  · exact pure _
  · exact times hs _
  · exact consume _ _ _
  · exact consume _ _ _
  · exact (askMemory _).bind fun _ => throw _

theorem skipWithin (levels : Nat) : LeavesStore (skipWithin levels) := by
  induction levels with
  | zero => exact read.bind fun _ => throw _
  | succ levels ih => exact (skipWith ih).nested

end LeavesStore

/-! ## Failures -/

/-- The failure says that the program has not the form of one, or that no level is left. -/
def IsSkipError (context : EvalContext) (e : EvalError) : Prop :=
  (∃ fault, e = .badSyntax fault) ∨ e = .tooDeep context.maxDepth

/-- The result has a property and tokens stand at the cursor, or the failure is one of skipping. -/
inductive OnTokens (context : EvalContext) (Q : α → Prop) :
    EStateM.Result EvalError EvalState α → Prop
  | ok {a : α} {st : EvalState} {tokens : Tokens} : Q a →
    (st.memory context).DenotesTokens st.cursor tokens → OnTokens context Q (.ok a st)
  | error {e : EvalError} {st : EvalState} : IsSkipError context e →
    OnTokens context Q (.error e st)

/-- How the action ends where tokens stand at the cursor. -/
def FailsOnTokens (context : EvalContext) (Q : α → Prop) (m : EvalM α) : Prop :=
  ∀ ⦃st tokens⦄, (st.memory context).DenotesTokens st.cursor tokens →
    OnTokens context Q (m context st)

namespace FailsOnTokens

variable {context : EvalContext} {Q : α → Prop} {R : β → Prop}

theorem pure {a : α} (h : Q a) : FailsOnTokens context Q (Pure.pure a) :=
  fun _ _ htokens => .ok h htokens

theorem fail (fault : SyntaxFault) : FailsOnTokens context Q (fail fault) :=
  fun _ _ _ => .error (Or.inl ⟨fault, rfl⟩)

theorem tooDeep : FailsOnTokens context Q (tooDeep : EvalM α) := fun _ _ _ => .error (Or.inr rfl)

theorem bind {m : EvalM α} {f : α → EvalM β} (hm : FailsOnTokens context Q m)
    (hf : ∀ a, Q a → FailsOnTokens context R (f a)) : FailsOnTokens context R (m >>= f) := by
  intro st tokens htokens
  have hfirst := hm htokens
  generalize hrun : m context st = result at hfirst
  cases hfirst with
  | ok hQ htokens' =>
    rw [reader_bind_of_ok hrun]
    exact hf _ hQ htokens'
  | error he =>
    rw [reader_bind_of_error hrun]
    exact .error he

theorem next (atEnd : SyntaxFault) :
    FailsOnTokens context (fun v => ∃ token, context.texts.DenotesToken v token)
      (next atEnd) := by
  rintro st tokens ⟨values, hchain, hvalues⟩
  cases hvalues with
  | nil =>
    rw [next_of_nil context hchain atEnd]
    exact .error (Or.inl ⟨atEnd, rfl⟩)
  | cons hvalue hvalues =>
    obtain ⟨rest, hnext, hreads⟩ := next_of_cons context hchain atEnd
    rw [hnext]
    exact .ok ⟨_, hvalue⟩ ⟨_, hreads.chain_of_cons hchain, hvalues⟩

theorem consume (atEnd : σ → SyntaxFault)
    (step : σ → Value → Except SyntaxFault (Progress σ α)) (state : σ) :
    FailsOnTokens context (fun _ => True) (consume atEnd step state) := by
  intro st tokens htokens
  refine (?_ : ∀ steps state, FailsOnTokens context (fun _ => True)
    (consumeWithin atEnd step steps state)) st.store.maxSteps state htokens
  intro steps state
  induction steps generalizing state with
  | zero => exact fail _
  | succ steps ih =>
    refine (next _).bind fun token _ => ?_
    split
    · exact ih _
    · exact pure trivial
    · exact fail _

theorem unexpected {v : Value} {token : Lexeme} (hv : context.texts.DenotesToken v token) :
    FailsOnTokens context Q (unexpected v : EvalM α) := by
  intro st tokens _
  have hrender : askMemory (·.render v) context st = .ok (String.ofList token.text) st :=
    askMemory_of_ok (Memory.renderToken_eq hv)
  unfold EvalM.unexpected
  rw [reader_bind_of_ok hrender]
  exact .error (Or.inl ⟨_, rfl⟩)

theorem nested {action : EvalM α} (h : FailsOnTokens context Q action) :
    FailsOnTokens context Q (nested action) := by
  rintro ⟨store, cursor, depth⟩ tokens htokens
  unfold EvalM.nested
  by_cases hdeep : context.maxDepth ≤ depth
  · simp only [if_pos hdeep]
    exact .error (Or.inr rfl)
  · simp only [if_neg hdeep]
    have hinner := @h ⟨store, cursor, depth + 1⟩ tokens htokens
    generalize action context ⟨store, cursor, depth + 1⟩ = result at hinner
    cases hinner with
    | ok hQ htokens' => exact .ok hQ htokens'
    | error he => exact .error he

theorem times {action : EvalM Unit} (h : FailsOnTokens context (fun _ => True) action) (n : Nat) :
    FailsOnTokens context (fun _ => True) (times n action) := by
  induction n with
  | zero => exact pure trivial
  | succ n ih => exact h.bind fun _ _ => ih

theorem skipWith {skip : EvalM Unit} (hs : FailsOnTokens context (fun _ => True) skip) :
    FailsOnTokens context (fun _ => True) (skipWith skip) := by
  refine (next _).bind fun v hv => ?_
  obtain ⟨token, hv⟩ := hv
  split
  · exact pure trivial
  · exact pure trivial
  · exact pure trivial
  · exact hs.times _
  · exact consume _ _ _
  · exact consume _ _ _
  · exact unexpected hv

theorem skipWithin (levels : Nat) :
    FailsOnTokens context (fun _ => True) (skipWithin levels) := by
  induction levels with
  | zero => exact tooDeep
  | succ levels ih => exact ih.skipWith.nested

end FailsOnTokens

end EvalM

/-! ## Skipping a term -/

theorem leavesStore_skipTerm : skipTerm.LeavesStore :=
  (EvalM.LeavesStore.read.bind fun _ => EvalM.LeavesStore.get.bind fun _ =>
    EvalM.LeavesStore.pure _).bind fun levels => .skipWithin levels

theorem failsOnTokens_skipTerm (context : EvalContext) :
    EvalM.FailsOnTokens context (fun _ => True) skipTerm :=
  fun _ _ htokens => EvalM.FailsOnTokens.skipWithin _ htokens

/-- Skipping leaves the cells and the texts of an interpreter as they are. -/
theorem Interpreter.memory_perform_skipTerm (i : Interpreter) (tokens : ListRef) :
    (i.perform tokens skipTerm).interpreter.memory = i.memory := by
  obtain ⟨config, ⟨store, texts⟩, depth⟩ := i
  have hstore := leavesStore_skipTerm ⟨texts, config.maxDepth⟩ ⟨store, tokens, depth⟩
  simp only [perform]
  generalize skipTerm ⟨texts, config.maxDepth⟩ ⟨store, tokens, depth⟩ = result at hstore
  have hsame : (stateOf result).store = store := hstore
  cases result with
  | ok _ st => exact congrArg (fun store => (⟨store, texts⟩ : Memory)) hsame
  | error e st => exact congrArg (fun store => (⟨store, texts⟩ : Memory)) hsame

end BraceLang
