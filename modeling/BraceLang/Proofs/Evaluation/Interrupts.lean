import BraceLang.Proofs.Evaluation.Deferral

/-!
# Evaluations that are broken off

An interrupt looks at the state in front of every term that is evaluated or skipped, and behind it,
and may break the evaluation off there with any failure and in any state. An evaluation under an
interrupt shows two things. If the interrupt says nothing about states that have a property, and the
evaluation stays the same, then it meets no other states. If it always ends with the failure of the
interrupt once that has spoken, then no part of the evaluation passes over the failure of another.

* `EvalM.skipUnder`, `EvalM.evaluateUnder`: skipping and evaluating under an interrupt.
* `EvalM.follows_evaluateWithin`: the evaluation under an interrupt is the one without it, or it
  ends with a failure of the interrupt.
-/

namespace BraceLang

/-- Where an evaluation is broken off, with the failure and the state that it ends with. -/
abbrev Interrupt := EvalState → Option (EvalError × EvalState)

namespace EvalM

/-! ## Evaluation under an interrupt -/

section Definitions

variable (interrupt : Interrupt)

/-- Ask the interrupt. -/
def checkpoint : EvalM Unit := fun _ st =>
  match interrupt st with
  | some (e, st') => .error e st'
  | none => .ok () st

/-- Ask the interrupt before an action and behind it. -/
def guarded {α : Type} (action : EvalM α) : EvalM α := do
  checkpoint interrupt
  let a ← action
  checkpoint interrupt
  pure a

/-- Skip a term with a number of levels left. The interrupt is asked around every term. -/
def skipUnder : Nat → EvalM Unit
  | 0 => guarded interrupt tooDeep
  | levels + 1 => guarded interrupt (nested (skipWith (skipUnder levels)))

/-- Evaluate a term with a number of levels left. The interrupt is asked around every term. -/
def evaluateUnder : Nat → Environment → EvalM Value
  | 0, _ => guarded interrupt tooDeep
  | levels + 1, env =>
    guarded interrupt (nested (termWith (evaluateUnder levels) (skipUnder interrupt levels) env))

end Definitions

/-! ## Outcomes with and without an interrupt -/

/-- The outcome is the same, or it is a failure that has been raised. -/
def Breaks {α : Type} (Raised : EvalError → Prop)
    (result result' : EStateM.Result EvalError EvalState α) : Prop :=
  result' = result ∨ ∃ e st, result' = .error e st ∧ Raised e

namespace Breaks

variable {α β : Type} {Raised : EvalError → Prop} {m m' : EvalM α} {f f' : α → EvalM β}
  {context : EvalContext} {st : EvalState}

theorem refl (result : EStateM.Result EvalError EvalState α) : Breaks Raised result result :=
  Or.inl rfl

theorem bind (h : Breaks Raised (m context st) (m' context st))
    (hf : ∀ a st', m context st = .ok a st' → Breaks Raised (f a context st') (f' a context st')) :
    Breaks Raised ((m >>= f) context st) ((m' >>= f') context st) := by
  rcases h with hsame | ⟨e, st', herror, hraised⟩
  · cases hm : m context st with
    | ok a st' =>
      rw [reader_bind_of_ok hm, reader_bind_of_ok (hsame.trans hm)]
      exact hf a st' hm
    | error e st' =>
      rw [reader_bind_of_error hm, reader_bind_of_error (hsame.trans hm)]
      exact refl _
  · right
    exact ⟨e, st', reader_bind_of_error herror, hraised⟩

theorem nested {depth : Nat} {store : Store} {cursor : ListRef}
    (h : Breaks Raised (m context ⟨store, cursor, depth + 1⟩)
      (m' context ⟨store, cursor, depth + 1⟩)) :
    Breaks Raised (nested m context ⟨store, cursor, depth⟩)
      (EvalM.nested m' context ⟨store, cursor, depth⟩) := by
  unfold EvalM.nested
  by_cases hdeep : context.maxDepth ≤ depth
  · simp only [if_pos hdeep]
    exact refl _
  · simp only [if_neg hdeep]
    rcases h with hsame | ⟨e, st', herror, hraised⟩
    · rw [hsame]
      exact refl _
    · right
      refine ⟨e, ⟨st'.store, st'.cursor, st'.depth - 1⟩, ?_, hraised⟩
      rw [herror]

theorem onTokens {tokens : ListRef}
    (h : Breaks Raised (m context { st with cursor := tokens })
      (m' context { st with cursor := tokens })) :
    Breaks Raised (onTokens tokens m context st) (EvalM.onTokens tokens m' context st) := by
  obtain ⟨store, cursor, depth⟩ := st
  unfold EvalM.onTokens
  rcases h with hsame | ⟨e, st', herror, hraised⟩
  · simp only at hsame ⊢
    rw [hsame]
    exact refl _
  · right
    refine ⟨e, ⟨st'.store, cursor, st'.depth⟩, ?_, hraised⟩
    simp only at herror ⊢
    rw [herror]

end Breaks

/-! ## Programs under an interrupt -/

/-- Growing leaves a property of stores if it leaves their slots. -/
def Lasting (Met : Store → Prop) : Prop :=
  ∀ s s', Met s → s.GrowsAbove s.slots.size s' → Met s'

/-- From stores that have the property, the second program ends as the first one does, or with a
failure that has been raised. The first program is tidy, so that it comes to stores that have the
property only. -/
structure Follows (Met : Store → Prop) (Raised : EvalError → Prop) {α : Type}
    (m m' : EvalM α) : Prop where
  tidy : Tidy m
  breaks : ∀ context st, Met st.store → Breaks Raised (m context st) (m' context st)

namespace Follows

variable {α β : Type} {Met : Store → Prop} {Raised : EvalError → Prop} {m m' : EvalM α}

theorem refl (h : Tidy m) : Follows Met Raised m m := ⟨h, fun _ _ _ => .refl _⟩

theorem met_of_ok (h : Follows Met Raised m m') (hlasting : Lasting Met) {context : EvalContext}
    {st st' : EvalState} {a : α} (hst : Met st.store) (hm : m context st = .ok a st') :
    Met st'.store := by
  have hrun := h.tidy context st
  rw [hm] at hrun
  exact hlasting _ _ hst hrun.of_ok.1

theorem bind (hlasting : Lasting Met) {f f' : α → EvalM β} (hm : Follows Met Raised m m')
    (hf : ∀ a, Follows Met Raised (f a) (f' a)) : Follows Met Raised (m >>= f) (m' >>= f') where
  tidy := hm.tidy.bind fun a => (hf a).tidy
  breaks := fun context st hst => (hm.breaks context st hst).bind fun a st' hok =>
    (hf a).breaks context st' (hm.met_of_ok hlasting hst hok)

theorem nested (h : Follows Met Raised m m') :
    Follows Met Raised (nested m) (EvalM.nested m') where
  tidy := tidy_nested h.tidy
  breaks := fun context st hst => Breaks.nested (h.breaks context { st with depth := _ } hst)

theorem onTokens (tokens : ListRef) (h : Follows Met Raised m m') :
    Follows Met Raised (onTokens tokens m) (EvalM.onTokens tokens m') where
  tidy := tidy_onTokens tokens h.tidy
  breaks := fun context st hst =>
    Breaks.onTokens (h.breaks context { st with cursor := tokens } hst)

/-- The interrupt may only raise the failures that are expected of it. -/
theorem guarded (hlasting : Lasting Met) {interrupt : Interrupt}
    (hraises : ∀ st e st', Met st.store → interrupt st = some (e, st') → Raised e)
    (h : Follows Met Raised m m') : Follows Met Raised m (guarded interrupt m') where
  tidy := h.tidy
  breaks := by
    intro context st hst
    have hask : ∀ {γ : Type} (action : EvalM γ) (st : EvalState), Met st.store →
        Breaks Raised (action context st)
          ((checkpoint interrupt >>= fun _ => action) context st) := by
      intro γ action st hst
      cases hask : interrupt st with
      | none =>
        have hok : checkpoint interrupt context st = .ok () st := by
          simp only [checkpoint, hask]
        rw [reader_bind_of_ok hok]
        exact .refl _
      | some found =>
        obtain ⟨e, st'⟩ := found
        have herror : checkpoint interrupt context st = .error e st' := by
          simp only [checkpoint, hask]
        right
        exact ⟨e, st', reader_bind_of_error herror, hraises st e st' hst hask⟩
    have hbehind : Breaks Raised ((m >>= Pure.pure) context st)
        ((m' >>= fun a => checkpoint interrupt >>= fun _ => Pure.pure a) context st) :=
      (h.breaks context st hst).bind fun a st' hok =>
        hask (Pure.pure a) st' (h.met_of_ok hlasting hst hok)
    rw [bind_pure] at hbehind
    rcases hask (m' >>= fun a => checkpoint interrupt >>= fun _ => Pure.pure a) st hst with
      hsame | hraised
    · rw [← hsame] at hbehind
      exact hbehind
    · right
      exact hraised

end Follows

/-! ## Calls under an interrupt -/

section Calls

variable {Met : Store → Prop} {Raised : EvalError → Prop} {eval eval' : Environment → EvalM Value}
  {context : EvalContext}

theorem breaks_bindActual (he : ∀ env, Follows Met Raised (eval env) (eval' env))
    (env : Environment) (formal : Formal) {st : EvalState} (hst : Met st.store) :
    Breaks Raised (bindActual eval env formal context st)
      (bindActual eval' env formal context st) := by
  obtain ⟨mode, name⟩ := formal
  cases mode with
  | eager => exact ((he env).breaks context st hst).bind fun value st' _ => .refl _
  | deferred => exact .refl _

theorem breaks_bindActuals (hlasting : Lasting Met)
    (he : ∀ env, Follows Met Raised (eval env) (eval' env)) (env : Environment)
    (formals : List Formal) {st : EvalState} (hst : Met st.store) :
    Breaks Raised (bindActuals eval env formals context st)
      (bindActuals eval' env formals context st) := by
  induction formals generalizing st with
  | nil => exact .refl _
  | cons formal formals ih =>
    refine (breaks_bindActual he env formal hst).bind fun bound st₁ hok₁ => ?_
    obtain ⟨actual, separator⟩ := bound
    refine (Breaks.refl _).bind fun _ st₂ hok₂ => ?_
    have hopens := opens_bindActual (fun env => (he env).tidy) env formal context st
    rw [hok₁] at hopens
    have hmet₁ := hlasting _ _ hst hopens.of_ok.1
    have hcheck := (basic_checkSeparator formals.isEmpty separator).tidy context st₁
    rw [hok₂] at hcheck
    exact (ih (hlasting _ _ hmet₁ hcheck.of_ok.1)).bind fun _ _ _ => .refl _

theorem breaks_settle (hlasting : Lasting Met)
    (he : ∀ env, Follows Met Raised (eval env) (eval' env)) (inner : Environment)
    (actual : Actual) {st : EvalState} (hst : Met st.store) :
    Breaks Raised (settle eval inner actual context st)
      (settle eval' inner actual context st) := by
  cases actual with
  | evaluated value => exact .refl _
  | captured ref =>
    refine (Breaks.refl _).bind fun slot st₁ hok₁ => ?_
    have hask := (basic_ask fun s => s.failsWith_slot ref).tidy context st
    rw [hok₁] at hask
    have hmet₁ := hlasting _ _ hst hask.of_ok.1
    exact (((he inner).onTokens slot.tokens).breaks context st₁ hmet₁).bind fun _ _ _ => .refl _

/-- Filling the slots of a call leaves those that were there before the call. -/
theorem breaks_settleAll (hlasting : Lasting Met)
    (he : ∀ env, Follows Met Raised (eval env) (eval' env)) (inner : Environment)
    (actuals : List (TextRef × Actual)) {start : Store} {rest : List SlotRef} {st : EvalState}
    (hstart : Met start) (hgrows : start.GrowsAbove start.slots.size st.store)
    (ha : st.store.Awaits start.slots.size (deferredSlots actuals ++ rest)) :
    Breaks Raised ((actuals.forM fun (_, actual) => settle eval inner actual) context st)
      ((actuals.forM fun (_, actual) => settle eval' inner actual) context st) := by
  induction actuals generalizing st with
  | nil => exact .refl _
  | cons entry actuals ih =>
    obtain ⟨name, actual⟩ := entry
    rw [deferredSlots_cons, List.append_assoc] at ha
    have hst : Met st.store := hlasting _ _ hstart hgrows
    have hfirst : Breaks Raised (settle eval inner actual context st)
        (settle eval' inner actual context st) := breaks_settle hlasting he inner actual hst
    show Breaks Raised
      ((settle eval inner actual >>= fun _ =>
        actuals.forM fun (_, actual) => settle eval inner actual) context st)
      ((settle eval' inner actual >>= fun _ =>
        actuals.forM fun (_, actual) => settle eval' inner actual) context st)
    refine hfirst.bind fun _ st₁ hok₁ => ?_
    have hsettle := spares_settle context (fun env => (he env).tidy) inner actual hgrows.size_le ha
    rw [hok₁] at hsettle
    obtain ⟨hgrows₁, ha₁⟩ := hsettle.of_ok
    exact ih (hgrows.trans hgrows₁) ha₁

theorem follows_runBody (hlasting : Lasting Met)
    (he : ∀ env, Follows Met Raised (eval env) (eval' env)) (env : Environment)
    (body : ListRef) : Follows Met Raised (runBody eval env body) (runBody eval' env body) := by
  refine ((he env).onTokens body).bind hlasting fun result => .refl ?_
  dsimp only
  split
  · exact Tidy.pure _
  · exact (basic_fail _).tidy

theorem follows_call (hlasting : Lasting Met)
    (he : ∀ env, Follows Met Raised (eval env) (eval' env)) (env : Environment)
    (callee : Closure) : Follows Met Raised (call eval env callee) (call eval' env callee) := by
  have htidy : ∀ env, Tidy (eval env) := fun env => (he env).tidy
  refine ⟨tidy_call htidy env callee, fun context st hst => ?_⟩
  have hformals : Tidy (askMemory (callee.formalList ·.store)) :=
    (basic_askMemory fun m => callee.failsWith_formalList m.store).tidy
  refine (Breaks.refl _).bind fun formals st₁ hok₁ => ?_
  have hread : Follows Met Raised _ _ := Follows.refl hformals
  have hmet₁ : Met st₁.store := hread.met_of_ok hlasting hst hok₁
  dsimp only
  split
  · have hbody := follows_runBody hlasting he ⟨callee.env⟩ callee.body
    have hexpect : Follows Met Raised (expect ')') (expect ')') := .refl (basic_expect ')').tidy
    exact (hexpect.bind hlasting fun _ => hbody).breaks context st₁ hmet₁
  · refine (breaks_bindActuals hlasting he env formals hmet₁).bind fun actuals st₂ hok₂ => ?_
    have hopens := opens_bindActuals htidy env formals context st₁
    rw [hok₂] at hopens
    obtain ⟨hgrows₂, ha₂⟩ := hopens.of_ok
    refine (Breaks.refl _).bind fun inner st₃ hok₃ => ?_
    have hextend := (tidy_ofStoreM (Environment.leavesSlots_extend ⟨callee.env⟩
      (actuals.map fun (name, actual) => (name, actual.toValue)))).spares context
        hgrows₂.size_le ha₂
    rw [hok₃] at hextend
    obtain ⟨hgrows₃, ha₃⟩ := hextend.of_ok
    rw [← List.append_nil (deferredSlots actuals)] at ha₃
    have hgrows := hgrows₂.trans hgrows₃
    refine (breaks_settleAll hlasting he inner actuals hmet₁ hgrows ha₃).bind
      fun _ st₄ hok₄ => ?_
    have hsettle := spares_settleAll context htidy inner actuals hgrows.size_le ha₃
    rw [hok₄] at hsettle
    have hmet₄ := hlasting _ _ hmet₁ (hgrows.trans hsettle.of_ok.1)
    exact (follows_runBody hlasting he inner callee.body).breaks context st₄ hmet₄

end Calls

/-! ## Terms under an interrupt -/

section Terms

variable {Met : Store → Prop} {Raised : EvalError → Prop} {interrupt : Interrupt}

theorem compositional_follows (hlasting : Lasting Met) (Raised : EvalError → Prop) :
    Compositional (Follows Met Raised) where
  basic := fun h => .refl h.tidy
  bind := .bind hlasting
  call := follows_call hlasting
  nested := .nested
  tooDeep := .refl tidy_tooDeep

theorem follows_skipWithin (hlasting : Lasting Met)
    (hraises : ∀ st e st', Met st.store → interrupt st = some (e, st') → Raised e) (levels : Nat) :
    Follows Met Raised (skipWithin levels) (skipUnder interrupt levels) := by
  induction levels with
  | zero => exact (Follows.refl tidy_tooDeep).guarded hlasting hraises
  | succ levels ih =>
    exact ((compositional_follows hlasting Raised).skipWith ih).nested.guarded hlasting hraises

/-- An evaluation under an interrupt ends as it does without, or with a failure of the interrupt.
The interrupt is asked in states only which the evaluation meets, and all of them have the
property. -/
theorem follows_evaluateWithin (hlasting : Lasting Met)
    (hraises : ∀ st e st', Met st.store → interrupt st = some (e, st') → Raised e)
    (levels : Nat) (env : Environment) :
    Follows Met Raised (evaluateWithin levels env) (evaluateUnder interrupt levels env) := by
  induction levels generalizing env with
  | zero => exact (Follows.refl tidy_tooDeep).guarded hlasting hraises
  | succ levels ih =>
    have hskip := follows_skipWithin hlasting hraises levels
    have hterm := (compositional_follows hlasting Raised).termWith ih hskip env
    exact hterm.nested.guarded hlasting hraises

/-- An interrupt that never speaks does not change the evaluation. -/
theorem evaluateUnder_silent (levels : Nat) (env : Environment) :
    evaluateUnder (fun _ => none) levels env = evaluateWithin levels env := by
  have hlasting : Lasting fun _ => True := fun _ _ _ _ => trivial
  funext context st
  have hfollows : Follows (fun _ => True) (fun _ => False) (evaluateWithin levels env)
      (evaluateUnder (fun _ => none) levels env) :=
    follows_evaluateWithin hlasting (fun _ _ _ _ h => by cases h) levels env
  rcases hfollows.breaks context st trivial with hsame | ⟨e, st', -, hraised⟩
  · exact hsame
  · exact hraised.elim

end Terms

end EvalM

end BraceLang
