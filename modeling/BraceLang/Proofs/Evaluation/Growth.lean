import BraceLang.Proofs.Evaluation.Compositional

/-!
# Evaluation only grows the store

Evaluating and skipping, with whatever outcome and on whatever tokens, make the store grow and
leave the depth as it was. A program that is put together from others does so if they do.

* `EvalM.uniform_grows`, `EvalM.compositional_grows`: putting programs together.
* `grows_evaluate`, `grows_skipTerm`, `grows_invoke`: evaluating and skipping as they are called.
-/

namespace BraceLang

/-- The store grows and the depth is the same. -/
def EvalState.Grows (st st' : EvalState) : Prop :=
  st.store.Grows st'.store ∧ st'.depth = st.depth

instance : IsPreorder EvalState EvalState.Grows where
  refl := fun st => ⟨Std.Refl.refl st.store, rfl⟩
  trans := fun _ _ _ h h' => ⟨IsTrans.trans _ _ _ h.1 h'.1, h'.2.trans h.2⟩

namespace EvalM

/-- Whatever the outcome, the store grows and the depth is the same. -/
def Grows {α : Type} (m : EvalM α) : Prop := ∀ context, Keeps EvalState.Grows (m context)

section Rules

variable {α β : Type}

namespace Grows

theorem pure (a : α) : Grows (Pure.pure a : EvalM α) := fun _ => Keeps.pure a

theorem throw (e : EvalError) : Grows (MonadExcept.throw e : EvalM α) := fun _ => Keeps.throw e

theorem bind {m : EvalM α} {f : α → EvalM β} (hm : Grows m) (hf : ∀ a, Grows (f a)) :
    Grows (m >>= f) := fun context => (hm context).bind fun a => hf a context

theorem get : Grows (MonadState.get : EvalM EvalState) := fun _ st => Std.Refl.refl st

theorem read : Grows (MonadReader.read : EvalM EvalContext) := fun _ st => Std.Refl.refl st

end Grows

theorem grows_ofStoreM {action : StoreM α} (h : Keeps Store.Grows action) :
    Grows (ofStoreM action) := by
  intro context st
  have := h st.store
  unfold ofStoreM
  cases hrun : action st.store with
  | ok a s =>
    rw [hrun] at this
    simp only [hrun]
    exact ⟨this, rfl⟩
  | error e s =>
    rw [hrun] at this
    simp only [hrun]
    exact ⟨this, rfl⟩

theorem grows_askMemory (question : Memory → Except EvalError α) : Grows (askMemory question) := by
  refine Grows.get.bind fun st => Grows.read.bind fun context => ?_
  cases question ⟨st.store, context.texts⟩ with
  | ok a => exact Grows.pure a
  | error e => exact Grows.throw e

/-- The depth is lowered by as much as it was raised. -/
theorem grows_nested {action : EvalM α} (h : Grows action) : Grows (nested action) := by
  rintro context ⟨store, cursor, depth⟩
  have := h context ⟨store, cursor, depth + 1⟩
  unfold nested
  by_cases hdeep : context.maxDepth ≤ depth
  · simp only [if_pos hdeep]
    exact ⟨Std.Refl.refl store, rfl⟩
  · simp only [if_neg hdeep]
    cases hrun : action context ⟨store, cursor, depth + 1⟩ with
    | ok a st' =>
      rw [hrun] at this
      obtain ⟨hgrows, hdepth⟩ := this
      exact ⟨hgrows, by simp only [stateOf] at hdepth ⊢; omega⟩
    | error e st' =>
      rw [hrun] at this
      obtain ⟨hgrows, hdepth⟩ := this
      exact ⟨hgrows, by simp only [stateOf] at hdepth ⊢; omega⟩

theorem grows_onTokens (tokens : ListRef) {action : EvalM α} (h : Grows action) :
    Grows (onTokens tokens action) := by
  intro context st
  have := h context ⟨st.store, tokens, st.depth⟩
  unfold onTokens
  cases hrun : action context ⟨st.store, tokens, st.depth⟩ with
  | ok a st' =>
    rw [hrun] at this
    simp only [hrun]
    exact this
  | error e st' =>
    rw [hrun] at this
    simp only [hrun]
    exact this

theorem grows_of_basic {m : EvalM α} (h : Basic m) : Grows m := by
  induction h with
  | pure a => exact .pure a
  | throw _ => exact .throw _
  | get => exact .get
  | read => exact .read
  | moveTo cursor => exact fun _ st => ⟨Std.Refl.refl st.store, rfl⟩
  | ofStoreM h => exact grows_ofStoreM h.grows
  | bind _ _ ih ihf => exact ih.bind ihf

end Rules

/-! ## Programs that are put together -/

theorem uniform_grows : Uniform fun m _ => Grows m where
  basic := grows_of_basic
  bind := .bind
  ofStoreM := grows_ofStoreM
  onTokens := fun tokens h => grows_onTokens tokens h

theorem grows_settleAll {eval : Environment → EvalM Value} (he : ∀ env, Grows (eval env))
    (env : Environment) (actuals : List (TextRef × Actual)) :
    Grows (actuals.forM fun (_, actual) => settle eval env actual) :=
  @Uniform.settleAll _ uniform_grows eval eval he env actuals

theorem compositional_grows : Compositional fun m _ => Grows m where
  toSequential := uniform_grows.sequential
  nested := grows_nested
  tooDeep := Grows.read.bind fun _ => .throw _

theorem grows_evaluateWithin (levels : Nat) (env : Environment) :
    Grows (evaluateWithin levels env) := compositional_grows.evaluateWithin levels env

end EvalM

theorem grows_evaluate (env : Environment) : (evaluate env).Grows :=
  EvalM.compositional_grows.evaluate env

theorem grows_skipTerm : skipTerm.Grows := EvalM.compositional_grows.skipTerm

theorem grows_invoke (op : Keyword) (env : Environment) : (invoke op env).Grows :=
  EvalM.compositional_grows.invoke op env

end BraceLang
